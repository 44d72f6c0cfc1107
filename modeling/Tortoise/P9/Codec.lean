import Tortoise.P9.Entries

/-!
# Round trips and strictness of the codec

* `convS2M` and `convM2S` are inverse to each other exactly on the messages whose counts can be
  stored; `convS2M` stores others without complaint, and what it stores is not the message;
* what `convM2S` accepts fits exactly and has the size of its own encoding, exactly when no string
  of it holds a NUL and the fixed fields of an `Rread` or `Twrite` lie below the top of the address
  space;
* the same for directory entries, where an entry is stored with its size modulo `2 ^ 16` and
  `convM2D` accepts bytes after the last string.
-/

namespace Tortoise.P9

open Lib.Cursor List

variable {d : Stat9 (List Byte)} {n : Word}

/-! ## Strictness of `convM2S` -/

/-- What the acceptance of a message should mean: its bytes fit exactly, and encoding the result
gives their number again. -/
structure Strict (m : Mem) (buf size : Word) (f' : FcallP) (m' : Mem) : Prop where
  exact : ∃ t b, f'.type = t.code ∧ Exact (window m buf size.toNat) t f'.tag b
  again : ∀ k, size ≤ k → (convS2M (f'.read m') k).1 = size

/-- The size the message at `buf` declares. -/
def declaredSize (m : Mem) (buf : Word) : Word := g32 (window m buf 7) 0

/-- The message at `buf` does not reach over the top of the address space with its fixed fields, and
the strings it has hold no NUL. -/
structure Plain (m : Mem) (buf : Word) : Prop where
  room_rread : m (buf + 4) = MType.code .rread → buf.toNat + 11 < 2 ^ 32
  room_twrite : m (buf + 4) = MType.code .twrite → buf.toNat + 23 < 2 ^ 32
  nul_free : ∀ t tag b, Exact (window m buf (declaredSize m buf).toNat) t tag b →
    ∀ s ∈ b.strings, 0 ∉ s

theorem print_inj {s : Shape} {b b' : Body s} (hb : b.Fits) (hb' : b'.Fits)
    (h : b.print = b'.print) : b = b' := by
  have h₁ := parse_iff.mpr ⟨hb, congrArg (· ++ []) h.symm⟩
  rw [parse_iff.mpr ⟨hb', rfl⟩] at h₁
  cases h₁
  rfl

section Run

variable {m m' : Mem} {buf n size : Word} {f f' : FcallP} {t : MType}

theorem g8_window_four : g8 (window m buf 7) 4 = m (buf + 4) := rfl

/-- A message at `buf` has the type its fifth byte says. -/
theorem Exact.type_eq {k : Nat} {tag : BitVec 16} {b : Body t.shape}
    (h : Exact (window m buf k) t tag b) : m (buf + 4) = t.code := by
  have hlen := h.length
  rw [length_window] at hlen
  have h7 : window m buf 7 = (wire t tag b).take 7 := by
    rw [← h.eq, take_window (by omega)]
  exact (wire_header h7).2.1

/-- The checks of `convM2S` on the fixed fields, where they do not wrap. -/
theorem le_of_gn {e p : Word} {k : Nat} {b : List Byte} {p' : Word}
    (h : gn e k (m, p) = some (b, m', p')) (hk : p.toNat + k < 2 ^ 32) : p.toNat + k ≤ e.toNat := by
  have hg : gn e k (m, p) = if p = 0 ∨ p + BitVec.ofNat 32 k > e then none
    else some (window m p k, m, p + BitVec.ofNat 32 k) := rfl
  rw [hg] at h
  split at h
  · cases h
  case isFalse hno =>
    have hle : (p + BitVec.ofNat 32 k).toNat ≤ e.toNat := Nat.le_of_not_lt fun h => hno (.inr h)
    rwa [toNat_add_ofNat hk] at hle

/-- The fixed fields that lie below the top of the address space lie inside the message. -/
theorem Accepted.reach_lt (h : Accepted m buf n f size f' m' t)
    (hn : buf.toNat + n.toNat < 2 ^ 32) (hp : Plain m buf) : 7 + reach t < size.toNat + 2 ^ 32 := by
  have hge := h.size_ge
  have hle := h.size_le
  have htype := g8_window_four.symm.trans h.type_eq
  have hend : buf.toNat + size.toNat < 2 ^ 32 := by omega
  obtain ⟨h7, he, -⟩ := ahead_body m hend hge
  cases t with
  | rread =>
    have hroom := hp.room_rread htype
    obtain ⟨b, ⟨m₁, p₁⟩, hgn, -⟩ := bind_eq_some.mp h.body
    have := le_of_gn hgn (by omega)
    simp only [reach]
    omega
  | twrite =>
    have hroom := hp.room_twrite htype
    obtain ⟨b, ⟨m₁, p₁⟩, hgn, -⟩ := bind_eq_some.mp h.body
    have := le_of_gn hgn (by omega)
    simp only [reach]
    omega
  | _ =>
    simp only [reach]
    omega

theorem sizeS2M_read {b : Body t.shape} (htype : f'.type = t.code)
    (hbody : bodyOf t (f'.read m') = b.cut) :
    sizeS2M (f'.read m') = BitVec.ofNat 32 (7 + b.cut.print.length) := by
  have ht : MType.ofByte (f'.read m').type = some t := ofByte_eq_some.mpr htype
  rw [sizeS2M_eq ht, hbody, cut_cut]

theorem Plain.strict (hp : Plain m buf) (hn : buf.toNat + n.toNat < 2 ^ 32)
    (h : convM2S m buf n f = some (size, f', m')) : Strict m buf size f' m' := by
  obtain ⟨t, hacc⟩ := convM2S_eq_some h
  obtain ⟨b, hexact, htype, hbody⟩ := hacc.exact hn (hacc.reach_lt hn hp)
  refine ⟨⟨t, b, htype, hexact⟩, fun k hk => ?_⟩
  have hnul := hp.nul_free t f'.tag b (by rw [declaredSize, ← hacc.size_eq]; exact hexact)
  have hlen := hexact.length
  rw [length_window] at hlen
  have hsize : sizeS2M (f'.read m') = size := by
    rw [sizeS2M_read htype hbody, cut_eq_self hnul, ← hlen, ofNat_toNat_word]
  have h0 : sizeS2M (f'.read m') ≠ 0 := fun h0 => by
    have hzero : (0 : Word).toNat = 0 := rfl
    rw [hsize] at h0
    rw [h0] at hlen
    omega
  rw [convS2M_fst h0 (hsize ▸ hk), hsize]

theorem Strict.plain (hs : Strict m buf size f' m') (hn : buf.toNat + n.toNat < 2 ^ 32)
    (h : convM2S m buf n f = some (size, f', m')) : Plain m buf := by
  obtain ⟨⟨t, b, htype, hexact⟩, hagain⟩ := hs
  obtain ⟨t', hacc⟩ := convM2S_eq_some h
  have hle := hacc.size_le
  have hlen := hexact.length
  rw [length_window] at hlen
  have hcode := hexact.type_eq
  obtain rfl : t' = t := code_inj (hacc.type_eq.symm.trans hcode)
  have hreach := P9.reach_lt b
  obtain ⟨b', hexact', -, hbody⟩ := hacc.exact hn (by omega)
  obtain rfl : b' = b := print_inj hexact'.fits hexact.fits
    (print_eq_of_wire (hexact'.eq.symm.trans hexact.eq))
  -- the encoder gives the same size only if cutting the strings has not shortened them
  have hsize : sizeS2M (f'.read m') = size := by
    have h₁ := hagain size (BitVec.le_refl size)
    have h₀ : (convS2M (f'.read m') size).1 ≠ 0 := fun h₀ => by
      have hzero : (0 : Word).toNat = 0 := rfl
      rw [h₁] at h₀
      rw [h₀] at hlen
      omega
    rwa [convS2M_eq (ofByte_eq_some.mpr htype) h₀] at h₁
  have hcut := length_cut b'
  have hlt := size.isLt
  rw [sizeS2M_read htype hbody] at hsize
  have hsize' := congrArg BitVec.toNat hsize
  rw [toNat_ofNat_of_lt (by omega)] at hsize'
  refine ⟨fun hr => ?_, fun hw => ?_, fun t'' tag b'' hb'' => ?_⟩
  · obtain rfl := code_inj (hcode.symm.trans hr)
    simp only [reach] at hreach
    omega
  · obtain rfl := code_inj (hcode.symm.trans hw)
    simp only [reach] at hreach
    omega
  · obtain rfl := code_inj (hcode.symm.trans hb''.type_eq)
    rw [declaredSize, ← hacc.size_eq] at hb''
    obtain rfl : b'' = b' := print_inj hb''.fits hexact.fits
      (print_eq_of_wire (hb''.eq.symm.trans hexact.eq))
    exact nulFree_of_lost (by omega)

end Run

/-! ## Directory entries -/

/-- The entries the codec is for. -/
def ValidEntry (d : Stat9 (List Byte)) : Prop :=
  ∀ x ∈ d.strings, 0 ∉ x ∧ x.length < 65536

/-- What follows the size of the entry can be counted in 16 bits. -/
def StorableEntry (d : Stat9 (List Byte)) : Prop :=
  47 + d.name.length + d.uid.length + d.gid.length + d.muid.length < 65536

/-- What a round trip asks of `n` and the bytes stored for an entry; the size field counts the
bytes after itself. -/
structure RoundTripEntry (d : Stat9 (List Byte)) (n : Word) (bs : List Byte) : Prop where
  length : bs.length = n.toNat
  size : g16 bs 0 + 2 = n
  back : ∀ (m : Mem) (buf : Word) (g : Stat9 Word), buf.toNat + n.toNat < 2 ^ 32 →
    window m buf n.toNat = bs → ∃ g' m', convM2D m buf n g = some (n, g', m') ∧ g'.read m' = d

/-- What the acceptance of an entry should mean. -/
structure StrictEntry (m : Mem) (buf size : Word) (d' : Stat9 Word) (m' : Mem) : Prop where
  exact : ∃ x, ExactEntry (window m buf size.toNat) x
  again : ∀ k, size ≤ k → (convD2M (d'.read m') k).1 = size

/-- The bytes the entry at `buf` declares after its size. -/
def entryBytes (m : Mem) (buf : Word) : List Byte :=
  window m (buf + 2) (g16 (window m buf 2) 0).toNat

/-- The bytes the entry at `buf` declares begin with the entry `x`, and `r` is what follows it. -/
def Begins (m : Mem) (buf : Word) (x : Stat9 (List Byte)) (r : List Byte) : Prop :=
  (∀ s ∈ x.strings, s.length < 65536) ∧ entryBytes m buf = x.print ++ r

/-- Nothing follows the four strings of the entry at `buf`, they hold no NUL, and where there is no
such entry the walk through its lengths cannot reach over the top of the address space. -/
structure PlainEntry (m : Mem) (buf : Word) : Prop where
  room : (∃ x r, Begins m buf x r) ∨ buf.toNat + 262189 < 2 ^ 32
  all_read : ∀ x r, Begins m buf x r → r = []
  nul_free : ∀ x r, Begins m buf x r → ∀ s ∈ x.strings, 0 ∉ s

theorem ValidEntry.cut_eq (h : ValidEntry d) : d.cut = d :=
  cut_stat_eq_self fun x hx => (h x hx).1

theorem ValidEntry.size_lt (h : ValidEntry d) : 2 + d.print.length < 2 ^ 32 := by
  simp only [ValidEntry, Stat9.strings, forall_mem_cons] at h
  obtain ⟨⟨-, h₁⟩, ⟨-, h₂⟩, ⟨-, h₃⟩, ⟨-, h₄⟩, -⟩ := h
  rw [length_print_stat]
  omega

theorem convD2M_eq (h : (convD2M d n).1 ≠ 0) :
    convD2M d n = (sizeD2M d, p16 (sizeD2M d - 2) ++ putStat d) := by
  simp only [convD2M] at h ⊢
  split at h
  · exact absurd rfl h
  case isFalse hle => rw [if_neg hle]

/-- What `convD2M` stores for a valid entry. -/
theorem ValidEntry.convD2M_eq (hv : ValidEntry d) (h : (convD2M d n).1 ≠ 0) :
    convD2M d n = (BitVec.ofNat 32 (2 + d.print.length), entry d) := by
  have hsub : sizeD2M d - 2 = BitVec.ofNat 32 d.print.length := by
    rw [sizeD2M_eq, hv.cut_eq, BitVec.ofNat_add, BitVec.add_comm]
    exact BitVec.add_sub_cancel _ _
  rw [P9.convD2M_eq h, hsub, putStat_eq, sizeD2M_eq, hv.cut_eq]
  rfl

theorem StorableEntry.roundTrip (hs : StorableEntry d) (hv : ValidEntry d)
    (h : (convD2M d n).1 ≠ 0) : RoundTripEntry d (convD2M d n).1 (convD2M d n).2 := by
  have hlt : d.print.length < 65536 := by
    rw [length_print_stat]
    exact hs
  have hsize := toNat_ofNat_of_lt hv.size_lt
  rw [hv.convD2M_eq h]
  refine ⟨?_, ?_, fun m buf g hbuf hw => ?_⟩
  · rw [hsize, entry, length_append, length_p16]
  · rw [entry, g16_p16, BitVec.ofNat_add, BitVec.add_comm]
    · rfl
    · rw [toNat_ofNat_of_lt (by omega)]
      exact hlt
  · obtain ⟨g', m', hg, hread⟩ :=
      convM2D_complete hbuf le_rfl ⟨fun x hx => (hv x hx).2, hlt, hw⟩ g
    exact ⟨g', m', hg, hread.trans hv.cut_eq⟩

/-- A size that 16 bits do not hold is not the one that is read back. -/
theorem RoundTripEntry.storable (hv : ValidEntry d) (h : (convD2M d n).1 ≠ 0)
    (hr : RoundTripEntry d (convD2M d n).1 (convD2M d n).2) : StorableEntry d := by
  rw [hv.convD2M_eq h] at hr
  have hsize : (g16 (entry d) 0 + 2).toNat = (BitVec.ofNat 32 (2 + d.print.length)).toNat :=
    congrArg BitVec.toNat hr.size
  have hlt := g16_lt (entry d) 0
  rw [toNat_entry_size, toNat_ofNat_of_lt hv.size_lt] at hsize
  rw [StorableEntry, ← length_print_stat]
  omega

section RunEntry

variable {m m' : Mem} {buf n size : Word} {d d' : Stat9 Word}

/-- What `convM2D` accepts is an entry followed by any bytes. -/
theorem convM2D_accepts (hn : buf.toNat + n.toNat < 2 ^ 32)
    (hroom : (∃ x r, Begins m buf x r) ∨ buf.toNat + 262189 < 2 ^ 32)
    (h : convM2D m buf n d = some (size, d', m')) :
    size = g16 (window m buf 2) 0 + 2 ∧
      window m buf size.toNat = window m buf 2 ++ entryBytes m buf ∧
      ∃ x r, Begins m buf x r ∧ d'.read m' = x.cut := by
  obtain ⟨hsize, hle, p, hd⟩ := convM2D_eq_some h
  have hnat : size.toNat = (g16 (window m buf 2) 0).toNat + 2 := by
    rw [hsize, toNat_entry_size]
  have hend : buf.toNat + size.toNat < 2 ^ 32 := by omega
  obtain ⟨hp, he, hw⟩ := ahead_entry m hend (by omega)
  have hbytes : ahead m (buf + 2) (buf + size) = entryBytes m buf := by
    rw [ahead, hp, he, entryBytes]
    congr 1
    omega
  refine ⟨hsize, hbytes ▸ hw, ?_⟩
  have hsim := sim_getStat (buf + size) d
  cases hI : parseStat (ahead m (buf + 2) (buf + size)) with
  | none =>
    have hstray := hsim.strays m (buf + 2) (by omega) (by omega) hI d' m' p hd
    rcases hroom with ⟨x, r, hx, hl⟩ | hroom
    · rw [hbytes, hl, parseStat_print hx] at hI
      cases hI
    · omega
  | some q =>
    obtain ⟨x, r⟩ := q
    obtain ⟨a, m₁, p₁, hd', -, hread⟩ := hsim.meets m (buf + 2) x r (by omega) (by omega) hI
    rw [hd] at hd'
    cases hd'
    obtain ⟨hstr, hl⟩ := parseStat_sound hI
    exact ⟨x, r, ⟨hstr, hbytes ▸ hl⟩, hread m' fun _ _ _ => rfl⟩

theorem Begins.unique {x y : Stat9 (List Byte)} {r r' : List Byte} (hx : Begins m buf x r)
    (hy : Begins m buf y r') : x = y ∧ r = r' := by
  have h₁ := parseStat_print hx.1 r
  rw [← hx.2, hy.2, parseStat_print hy.1] at h₁
  cases h₁
  exact ⟨rfl, rfl⟩

theorem sizeD2M_read {x : Stat9 (List Byte)} (h : d'.read m' = x.cut) :
    sizeD2M (d'.read m') = BitVec.ofNat 32 (2 + x.cut.print.length) := by
  rw [sizeD2M_eq, h, cut_cut_stat]

theorem PlainEntry.strict (hp : PlainEntry m buf) (hn : buf.toNat + n.toNat < 2 ^ 32)
    (h : convM2D m buf n d = some (size, d', m')) : StrictEntry m buf size d' m' := by
  obtain ⟨hsize, hw, x, r, hx, hread⟩ := convM2D_accepts hn hp.room h
  have hnul := hp.nul_free x r hx
  obtain rfl := hp.all_read x r hx
  obtain ⟨hstr, hbytes⟩ := hx
  rw [append_nil] at hbytes
  have hlen : (g16 (window m buf 2) 0).toNat = x.print.length := by
    have := congrArg List.length hbytes
    rwa [entryBytes, length_window] at this
  have hlt := g16_lt (window m buf 2) 0
  have hdeclared : g16 (window m buf 2) 0 = BitVec.ofNat 32 x.print.length := by
    rw [← hlen, ofNat_toNat_word]
  refine ⟨⟨x, hstr, by omega, ?_⟩, fun k hk => ?_⟩
  · have h2 := p16_g16 (l := window m buf 2) (by simp)
    rw [drop_of_length_le (by simp), append_nil] at h2
    rw [hw, hbytes, entry, ← hdeclared, h2]
  · have hsize' : sizeD2M (d'.read m') = size := by
      rw [sizeD2M_read hread, cut_stat_eq_self hnul, hsize, hdeclared, BitVec.ofNat_add,
        BitVec.add_comm]
      rfl
    rw [convD2M_fst (hsize' ▸ hk), hsize']

theorem StrictEntry.plain (hs : StrictEntry m buf size d' m') (hn : buf.toNat + n.toNat < 2 ^ 32)
    (h : convM2D m buf n d = some (size, d', m')) : PlainEntry m buf := by
  obtain ⟨⟨x, hstr, hlt, hx⟩, hagain⟩ := hs
  have hlen := congrArg List.length hx
  rw [length_window, entry, length_append, length_p16] at hlen
  obtain ⟨hdecl, hle, -⟩ := convM2D_eq_some h
  have hsplit : window m buf 2 ++ entryBytes m buf = entry x := by
    have hnat : size.toNat = 2 + (g16 (window m buf 2) 0).toNat := by
      rw [hdecl, toNat_entry_size, Nat.add_comm]
    rw [← hx, hnat, window_add]
    rfl
  have hbegins : Begins m buf x [] := by
    refine ⟨hstr, ?_⟩
    rw [append_nil]
    exact append_inj_right hsplit (by simp)
  obtain ⟨-, -, y, r, hy, hread⟩ := convM2D_accepts hn (.inl ⟨x, [], hbegins⟩) h
  obtain ⟨rfl, rfl⟩ := hbegins.unique hy
  -- the same size again: cutting the strings has not shortened them
  have hcut := length_cut_stat x
  have hsize : sizeD2M (d'.read m') = size := by
    have h₁ := hagain size (BitVec.le_refl size)
    have h₀ : (convD2M (d'.read m') size).1 ≠ 0 := fun h₀ => by
      have hzero : (0 : Word).toNat = 0 := rfl
      rw [h₁] at h₀
      rw [h₀] at hlen
      omega
    rwa [convD2M_eq h₀] at h₁
  rw [sizeD2M_read hread] at hsize
  have hsize' := congrArg BitVec.toNat hsize
  rw [toNat_ofNat_of_lt (by omega)] at hsize'
  have hnul := nulFree_of_lost (l := x.strings) (by omega)
  refine ⟨.inl ⟨x, [], hbegins⟩, fun z r hz => (hbegins.unique hz).2.symm, fun z r hz => ?_⟩
  obtain ⟨rfl, -⟩ := hbegins.unique hz
  exact hnul

end RunEntry

/-! ## The codec -/

/-- **The codec round trips what it can store and accepts only what it could have written**: a
stored message or entry comes back exactly when its counts are storable, and an accepted one fits
exactly and encodes to the same size exactly when it is plain. -/
theorem codec_inverse (n : Word) :
    (∀ t f, MType.ofByte f.type = some t → Valid t f → (convS2M f n).1 ≠ 0 →
      (RoundTrip t f (convS2M f n).1 (convS2M f n).2 ↔ Storable t f)) ∧
    (∀ m buf f size f' m', buf.toNat + n.toNat < 2 ^ 32 →
      convM2S m buf n f = some (size, f', m') → (Strict m buf size f' m' ↔ Plain m buf)) ∧
    (∀ d, ValidEntry d → (convD2M d n).1 ≠ 0 →
      (RoundTripEntry d (convD2M d n).1 (convD2M d n).2 ↔ StorableEntry d)) ∧
    ∀ m buf d size d' m', buf.toNat + n.toNat < 2 ^ 32 →
      convM2D m buf n d = some (size, d', m') →
        (StrictEntry m buf size d' m' ↔ PlainEntry m buf) := by
  refine ⟨fun t f ht hv h => ⟨RoundTrip.storable ht hv h, fun hs => hs.roundTrip ht hv h⟩,
    fun m buf f size f' m' hn h => ⟨fun hs => hs.plain hn h, fun hp => hp.strict hn h⟩,
    fun d hv h => ⟨RoundTripEntry.storable hv h, fun hs => hs.roundTrip hv h⟩,
    fun m buf d size d' m' hn h => ⟨fun hs => hs.plain hn h, fun hp => hp.strict hn h⟩⟩

/-- A memory that holds the bytes from address 0 on. -/
def memOf (bs : List Byte) : Mem := fun x => bs.getD x.toNat 0

/-- A walk from fid 1 to fid 2 by the names `usr` and `bin`. -/
def walkMsg : FcallV :=
  { (default : FcallV) with
    type := 110
    tag := 5
    fid := 1
    newfid := 2
    wname := [[117, 115, 114], [98, 105, 110]] }

/-- The entry of a file `tty` of the user and the group `sys`. -/
def ttyEntry : Stat9 (List Byte) :=
  { (default : Stat9 (List Byte)) with
    mode := 0o620
    length := 3
    name := [116, 116, 121]
    uid := [115, 121, 115]
    gid := [115, 121, 115] }

/-- The walk and the entry, there and back. -/
theorem codec_inverse_walk :
    let m := memOf (convS2M walkMsg 64).2
    let e := memOf (convD2M ttyEntry 64).2
    RoundTrip .twalk walkMsg (convS2M walkMsg 64).1 (convS2M walkMsg 64).2 ∧
    (∃ f' m', convM2S m 0 27 default = some (27, f', m') ∧ (Strict m 0 27 f' m' ↔ Plain m 0)) ∧
    RoundTripEntry ttyEntry (convD2M ttyEntry 64).1 (convD2M ttyEntry 64).2 ∧
    ∃ d' m', convM2D e 0 58 default = some (58, d', m') ∧
      (StrictEntry e 0 58 d' m' ↔ PlainEntry e 0) := by
  intro m e
  have hsize : (convS2M walkMsg 64).1 = 27 := by decide
  have hentry : (convD2M ttyEntry 64).1 = 58 := by decide
  have hmsg := ((codec_inverse 64).1 .twalk walkMsg (by decide) ⟨by decide, by decide⟩
    (by decide)).mpr trivial
  have hstat := ((codec_inverse 64).2.2.1 ttyEntry (by unfold ValidEntry; decide)
    (by decide)).mpr (by unfold StorableEntry; decide)
  have hm : window m 0 27 = (convS2M walkMsg 64).2 := by decide +kernel
  have he : window e 0 58 = (convD2M ttyEntry 64).2 := by decide +kernel
  obtain ⟨f', m', hf, -⟩ := hmsg.back m 0 default (by rw [hsize]; decide) (by rw [hsize]; exact hm)
  obtain ⟨d', m'', hd, -⟩ :=
    hstat.back e 0 default (by rw [hentry]; decide) (by rw [hentry]; exact he)
  rw [hsize] at hf
  rw [hentry] at hd
  exact ⟨hmsg, ⟨f', m', hf, (codec_inverse 27).2.1 _ _ default _ _ _ (by decide) hf⟩, hstat,
    d', m'', hd, (codec_inverse 58).2.2.2 _ _ default _ _ _ (by decide) hd⟩

/-- An `Rstat` of 65536 bytes. -/
def longStat : FcallV := { (default : FcallV) with type := 125, nstat := 65536 }

/-- **The codec is not inverse everywhere.**  `convS2M` stores an `Rstat` of 65536 bytes with the
count 0, which does not come back; `convM2S` accepts an `Rerror` of 10 bytes whose string is a NUL,
and encodes it in 9; `convM2D` accepts an entry with one byte too many. -/
theorem codec_loses_counts :
    (Valid .rstat longStat ∧ (convS2M longStat 100000).1 = 65545 ∧
      ¬RoundTrip .rstat longStat (convS2M longStat 100000).1 (convS2M longStat 100000).2) ∧
    (convM2S (memOf [10, 0, 0, 0, 107, 0, 0, 1, 0, 0]) 0 10 default).map
      (fun r => (r.1, (convS2M (r.2.1.read r.2.2) 10).1)) = some (10, 9) ∧
    (convM2D (memOf [48]) 0 50 default).map
      (fun r => (r.1, (convD2M (r.2.1.read r.2.2) 50).1)) = some (50, 49) := by
  have hv : Valid .rstat longStat := ⟨nofun, by decide⟩
  refine ⟨⟨hv, by decide, fun hr => ?_⟩, by decide +kernel, by decide +kernel⟩
  have hs := RoundTrip.storable (by decide) hv (by decide) hr
  exact absurd hs (by simp [Storable, longStat])

end Tortoise.P9
