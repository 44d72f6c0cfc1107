import Tortoise.P9.Format

/-!
# The decoders follow the format

`convM2S` and `convM2D` walk a pointer through memory with checks that wrap, and rewrite the bytes
they pass.  Each of their steps follows the parser of the format.

* `sim_gstr`: `gstr` follows `counted`, and the string it leaves in memory is the counted one up to
  its first NUL;
* `sim_getBody`: every case of the switch of `convM2S` follows the parser of its shape.
-/

namespace Tortoise.P9

open Function Lib.Cursor BitVec List

variable {m : Mem} {n w : Nat} {e p : Word}

/-! ## Fixed fields and data -/

theorem sim_gn {β : Type} {I : Parser β} {v : List Byte → β} (e : Word) (hI : Fixed I w v)
    (hw : w < 2 ^ 32) : Sim e (gn e w) I (fun _ a b => b = v a) w :=
  .step hI hw (fun _ _ => rfl) fun _ _ _ _ _ => rfl

theorem fixed_take (k : Nat) : Fixed (take k) k (List.take k ·) where
  eq _ := rfl
  take l := by simp

/-- The data at a pointer, by its bytes. -/
theorem window_eq_of_same {m₂ : Mem} (h : p.toNat + w < 2 ^ 32)
    (hs : Same p (p + BitVec.ofNat 32 w) m m₂) : window m₂ p w = window m p w := by
  refine window_congr fun i hi => hs _ ?_ ?_
  · rw [toNat_add_ofNat (by omega)]
    omega
  · rw [toNat_add_ofNat (by omega), toNat_add_ofNat (by omega)]
    omega

theorem sim_gdata (e k : Word) :
    Sim e (gdata e k) (take k.toNat) (fun m q d => window m q k.toNat = d) k.toNat := by
  refine .step (g := fun _ p => p) (fixed_take k.toNat) k.isLt (fun m p => ?_)
    fun m m₂ p hp hs => ?_
  · rw [ofNat_toNat, setWidth_eq]
    rfl
  · have := e.isLt
    rw [window_eq_of_same (by omega) hs, take_of_length_le (by rw [length_window])]

theorem sim_gqid (e : Word) : Sim e (gqid e) qid (fun _ a b => b = a) 13 := by
  have h := (sim_gn e fixed_qid (by decide)).bindFixed
    (k := fun b => pure (getQid b 0)) (K := pure) fun b => Sim.pure _ _
  rw [bind_pure] at h
  refine h.mono ?_ le_rfl
  rintro _ a b ⟨c, rfl, rfl⟩
  rfl

/-! ## Strings -/

theorem moveDown_succ (p : Word) (n : Nat) (m : Mem) :
    moveDown p (n + 1) m = update (moveDown p n m) (p + BitVec.ofNat 32 n)
      (moveDown p n m (p + BitVec.ofNat 32 (n + 2))) := by
  simp only [moveDown, range_succ, foldl_append, foldl_cons, foldl_nil]

/-- The loop of `gstr` moves `n` bytes down by two: a byte is read before it is overwritten. -/
theorem moveDown_spec (m : Mem) (h : p.toNat + n + 2 ≤ 2 ^ 32) :
    (∀ i < n, moveDown p n m (p + BitVec.ofNat 32 i) = m (p + BitVec.ofNat 32 (i + 2))) ∧
      ∀ x : Word, x.toNat < p.toNat ∨ p.toNat + n ≤ x.toNat → moveDown p n m x = m x := by
  induction n with
  | zero => exact ⟨by simp, fun x _ => rfl⟩
  | succ n ih =>
    obtain ⟨hin, hout⟩ := ih (by omega)
    have hn := toNat_add_ofNat (p := p) (k := n) (by omega)
    rw [moveDown_succ]
    refine ⟨fun i hi => ?_, fun x hx => ?_⟩
    · rcases Nat.lt_succ_iff_lt_or_eq.mp hi with hi | rfl
      · have hne : p + BitVec.ofNat 32 i ≠ p + BitVec.ofNat 32 n := fun heq => by
          have := congrArg BitVec.toNat heq
          rw [toNat_add_ofNat (by omega), hn] at this
          omega
        rw [update_of_ne hne, hin i hi]
      · rw [update_self, hout _ (.inr ?_)]
        rw [toNat_add_ofNat (by omega)]
        omega
    · have hne : x ≠ p + BitVec.ofNat 32 n := by
        rintro rfl
        omega
      rw [update_of_ne hne, hout x (by omega)]

/-- A string in memory with a NUL after it reads as its text. -/
theorem cstr_eq_text (s : List Byte) (hn : s.length < n)
    (hs : ∀ i (hi : i < s.length), m (p + BitVec.ofNat 32 i) = s[i])
    (h0 : m (p + BitVec.ofNat 32 s.length) = 0) : cstr m p n = text s := by
  induction s generalizing p n with
  | nil =>
    obtain ⟨n, rfl⟩ := Nat.exists_eq_add_one_of_ne_zero (Nat.ne_of_gt hn)
    have : m p = 0 := by simpa using h0
    simp [cstr, text, this]
  | cons a s ih =>
    obtain ⟨n, rfl⟩ := Nat.exists_eq_add_one_of_ne_zero (Nat.ne_of_gt (Nat.zero_lt_of_lt hn))
    have ha : m p = a := by
      have h := hs 0 (by simp)
      rwa [BitVec.add_zero] at h
    have hstep : ∀ i, p + 1 + BitVec.ofNat 32 i = p + BitVec.ofNat 32 (i + 1) := fun i => by
      rw [BitVec.add_assoc, Nat.add_comm i 1, ofNat_add]
      rfl
    have htail : cstr m (p + 1) n = text s := by
      refine ih (by simpa using hn) (fun i hi => ?_) ?_
      · rw [hstep, hs (i + 1) (by simpa using hi)]
        rfl
      · rw [hstep]
        exact h0
    rw [cstr, ha, htail]
    by_cases h : a = 0
    · rw [if_pos h, text, takeWhile_cons_of_neg (by simpa using h)]
    · rw [if_neg h, text, text, takeWhile_cons_of_pos (by simpa using h)]

/-- The length a string at `p` declares. -/
def declared (m : Mem) (p : Word) : Word := g16 (window m p 2) 0

theorem gstr_eq_some {m' : Mem} {p' q : Word} (h : gstr e (m, p) = some (q, m', p')) :
    p' = p + BitVec.ofNat 32 (2 + (declared m p).toNat) ∧ p'.toNat ≤ e.toNat := by
  simp only [gstr] at h
  split at h
  · cases h
  split at h
  · cases h
  case isFalse hle =>
    cases h
    refine ⟨?_, Nat.le_of_not_lt hle⟩
    rw [ofNat_add, ofNat_toNat, setWidth_eq, ← BitVec.add_assoc]
    rfl

/-- What `gstr` does with a string that ends before `e`. -/
theorem gstr_of_le (hp : 0 < p.toNat) (h : p.toNat + 2 + (declared m p).toNat ≤ e.toNat) :
    gstr e (m, p) = some (p, update (moveDown p (declared m p).toNat m)
      (p + declared m p) 0, p + BitVec.ofNat 32 (2 + (declared m p).toNat)) := by
  have hlt := e.isLt
  have h2 : (p + 2).toNat = p.toNat + 2 := toNat_add_ofNat (k := 2) (by omega)
  have h3 : p + 2 + declared m p = p + BitVec.ofNat 32 (2 + (declared m p).toNat) := by
    rw [ofNat_add, ofNat_toNat, setWidth_eq, ← BitVec.add_assoc]
    rfl
  have h4 := toNat_add_ofNat (p := p) (k := 2 + (declared m p).toNat) (by omega)
  simp only [gstr]
  rw [if_neg, if_neg]
  · rw [← h3]
    rfl
  · intro hgt
    have : e.toNat < (p + 2 + declared m p).toNat := hgt
    rw [h3, h4] at this
    omega
  · rintro (rfl | hgt)
    · exact absurd hp (by decide)
    · have : e.toNat < (p + 2).toNat := hgt
      omega

/-- The string of a successful parse is the one that lies at the pointer. -/
theorem counted_at {s rest : List Byte} (he : p.toNat ≤ e.toNat)
    (h : counted (ahead m p e) = some (s, rest)) :
    s.length < 65536 ∧ p.toNat + 2 + s.length ≤ e.toNat ∧ (declared m p).toNat = s.length ∧
      s = window m (p + 2) s.length ∧
      rest = ahead m (p + BitVec.ofNat 32 (2 + s.length)) e := by
  obtain ⟨hs, hl⟩ := counted_eq_some.mp h
  have hlen := congrArg List.length hl
  simp only [length_ahead, str, length_append, length_p16] at hlen
  have hle : p.toNat + (2 + s.length) ≤ e.toNat := by omega
  have hd : declared m p = BitVec.ofNat 32 s.length := by
    rw [declared, ← take_ahead (e := e) (by omega), g16_take (by omega), hl, str,
      List.append_assoc, g16_p16]
    rw [toNat_ofNat_of_lt (by omega)]
    exact hs
  refine ⟨hs, by omega, by rw [hd, toNat_ofNat_of_lt (by omega)], ?_, ?_⟩
  · have hw : ahead m p e = window m p (2 + s.length + rest.length) := by
      rw [ahead, hlen]
    rw [hl, window_add, window_add] at hw
    have h1 := append_inj_left hw (by simp [str])
    exact append_inj_right h1 (by simp)
  · rw [← drop_ahead hle, hl, drop_left' (by simp [str])]

theorem sim_gstr (e : Word) : Sim e (gstr e) counted (fun m q s => readStr m q = text s) 65537 where
  drift m p a m' p' h := by
    have := g16_lt (window m p 2) 0
    exact ⟨2 + (declared m p).toNat, by unfold declared; omega, (gstr_eq_some h).1⟩
  meets m p s rest hp he h := by
    obtain ⟨hs, hle, hd, hw, hrest⟩ := counted_at he h
    have hlt := e.isLt
    have hn : p + declared m p = p + BitVec.ofNat 32 s.length := by
      rw [← hd, ofNat_toNat, setWidth_eq]
    have hpn := toNat_add_ofNat (p := p) (k := s.length) (by omega)
    have hp' := toNat_add_ofNat (p := p) (k := 2 + s.length) (by omega)
    obtain ⟨hin, hout⟩ := moveDown_spec (p := p) (n := s.length) m (by omega)
    have hd' := gstr_of_le hp (hd ▸ hle)
    rw [hd, hn] at hd'
    have hframe : ∀ x : Word, x.toNat < p.toNat ∨ p.toNat + 2 + s.length ≤ x.toNat →
        update (moveDown p s.length m) (p + BitVec.ofNat 32 s.length) 0 x = m x := by
      intro x hx
      rw [update_of_ne, hout x (by omega)]
      rintro rfl
      omega
    refine ⟨_, _, _, hd', ⟨by omega, by omega, ?_, fun x hx => hframe x (by omega)⟩,
      fun m₂ hsame => ?_⟩
    · rw [hrest]
      exact (ahead_congr fun x hx => hframe x (by omega)).symm
    · refine cstr_eq_text s (by omega) (fun i hi => ?_) ?_
      · have hpi := toNat_add_ofNat (p := p) (k := i) (by omega)
        have hne : p + BitVec.ofNat 32 i ≠ p + BitVec.ofNat 32 s.length := fun heq => by
          have := congrArg BitVec.toNat heq
          omega
        rw [hsame _ (by omega) (by omega), update_of_ne hne, hin i hi]
        rw [getElem_of_eq hw hi, getElem_window, BitVec.add_assoc, Nat.add_comm i 2,
          ofNat_add]
        rfl
      · rw [hsame _ (by omega) (by omega), update_self]
  strays m p hp he h a m' p' hd := by
    obtain ⟨rfl, hle⟩ := gstr_eq_some hd
    have hlt := p.isLt
    have hdec : (declared m p).toNat < 65536 := g16_lt _ _
    -- the string does not end before `e`: otherwise the parser would have read it
    have hbig : e.toNat < p.toNat + 2 + (declared m p).toNat := by
      by_contra hcon
      have hhalf : half (ahead m p e) = some (declared m p, (ahead m p e).drop 2) := by
        rw [half, if_neg (by rw [length_ahead]; omega), declared,
          ← take_ahead (e := e) (by omega), g16_take (by omega)]
      rcases bind_eq_none.mp h with h | ⟨n, l, hn, htake⟩
      · rw [hhalf] at h
        cases h
      · rw [hhalf] at hn
        cases hn
        rw [take, if_neg (by rw [length_drop, length_ahead]; omega)] at htake
        cases htake
    rw [toNat_add, toNat_ofNat] at hle ⊢
    omega

/-! ## The cases of the switch -/

theorem Fixed.congr {β : Type} {I : Parser β} {v v' : List Byte → β} (h : Fixed I w v)
    (hv : ∀ l, v l = v' l) : Fixed I w v' := by
  obtain rfl : v = v' := funext hv
  exact h

theorem sim_word (e : Word) : Sim e (gn e 4) word (fun _ a b => b = g32 a 0) 4 :=
  sim_gn e fixed_word (by decide)

theorem sim_half (e : Word) : Sim e (gn e 2) half (fun _ a b => b = g16 a 0) 2 :=
  sim_gn e fixed_half (by decide)

theorem fixed_word_word : Fixed (pair word word) 8 fun l => (g32 l 0, g32 l 4) :=
  Fixed.congr (fixed_word.pair fixed_word) fun l => by rw [g32_drop]

theorem fixed_word_byte : Fixed (pair word byte) 5 fun l => (g32 l 0, g8 l 4) :=
  Fixed.congr (fixed_word.pair fixed_byte) fun l => by rw [g8_drop]

theorem fixed_word_half : Fixed (pair word half) 6 fun l => (g32 l 0, g16 l 4) :=
  Fixed.congr (fixed_word.pair fixed_half) fun l => by rw [g16_drop]

theorem fixed_walk : Fixed (pair word (pair word half)) 10 fun l => (g32 l 0, g32 l 4, g16 l 8) :=
  Fixed.congr (fixed_word.pair fixed_word_half) fun l => by rw [g32_drop, g16_drop]

theorem fixed_read : Fixed (pair word (pair word (pair word word))) 16
    fun l => (g32 l 0, g32 l 4, g32 l 8, g32 l 12) :=
  Fixed.congr (fixed_word.pair (fixed_word.pair fixed_word_word)) fun l => by
    simp only [g32_drop]

/-- What a decoded message is to the parsed body: the fields of its type, with the strings that are
in memory when the decoder returns, are those of the body up to the first NULs. -/
def Reads (t : MType) (f : FcallP) (m : Mem) (f' : FcallP) (b : Body t.shape) : Prop :=
  bodyOf t (f'.read m) = b.cut ∧ f'.type = f.type ∧ f'.tag = f.tag

/-- How far the case of a type can move the pointer: only the counts of `Rread` and `Twrite` can
bring it round the address space. -/
def reach : MType → Nat
  | .rread => 4 + (2 ^ 32 - 1)
  | .twrite => 16 + (2 ^ 32 - 1)
  | _ => 2 ^ 21

theorem map_readStr {qs : List Word} {ss : List (List Byte)}
    (h : List.Forall₂ (fun q s => readStr m q = text s) qs ss) :
    qs.map (readStr m) = ss.map text := by
  induction h with
  | nil => rfl
  | cons h _ ih => rw [map_cons, map_cons, h, ih]

theorem eq_of_forall₂ {α : Type} {as bs : List α} (h : List.Forall₂ (fun a b => b = a) as bs) :
    bs = as := forall₂_eq_eq_eq ▸ h.flip

theorem walk_le (h : ¬n > maxwelem) (B : Nat) : n * B + 0 ≤ maxwelem * B :=
  Nat.mul_le_mul_right B (Nat.le_of_not_lt h)

/-- A group of bytes and nothing after it. -/
theorem sim_fixed {α β γ δ : Type} {d : Decoder α} {I : Parser β} {v : α → β} {B B' : Nat}
    {g : α → γ} {G : β → δ} {Q : Mem → γ → δ → Prop} (h : Sim e d I (fun _ a b => b = v a) B)
    (hB : B ≤ B') (hQ : ∀ m a, Q m (g a) (G (v a))) :
    Sim e (d >>= fun a => pure (g a)) (I >>= fun b => pure (G b)) Q B' :=
  (h.thenFixed (K := fun b => pure (G b)) fun a => .ret fun m => hQ m a).within hB

/-- Data and nothing after it. -/
theorem sim_data {γ δ : Type} (k : Word) {B : Nat} {g : Word → γ} {G : List Byte → δ}
    {Q : Mem → γ → δ → Prop} (hB : k.toNat ≤ B)
    (hQ : ∀ m q s, window m q k.toNat = s → Q m (g q) (G s)) :
    Sim e (gdata e k >>= fun q => pure (g q)) (take k.toNat >>= fun s => pure (G s)) Q B :=
  ((sim_gdata e k).thenAny fun q s => .ret fun m => hQ m q s).within hB

/-- **Every case of the switch follows the parser of its shape.** -/
theorem sim_getBody (e : Word) (t : MType) (f : FcallP) :
    Sim e (getBody e t f) (parse t.shape) (Reads t f) (reach t) := by
  cases t with
  | tversion | rversion =>
    refine Sim.within (Sim.thenFixed (sim_word e) fun b => (sim_gstr e).thenAny fun q s =>
      .ret fun m hs => ?_) (by decide)
    exact ⟨congrArg (Body.version _) hs, rfl, rfl⟩
  | tauth =>
    refine Sim.within (Sim.thenFixed (sim_word e) fun b => (sim_gstr e).thenAny fun q s =>
      (sim_gstr e).thenAny fun q' s' => .ret fun m hs' hs => ?_) (by decide)
    exact ⟨congrArg₂ (Body.auth _) hs hs', rfl, rfl⟩
  | rauth | rattach => exact sim_fixed (sim_gqid e) (by decide) fun _ _ => ⟨rfl, rfl, rfl⟩
  | tattach =>
    refine Sim.within (Sim.thenFixed (sim_gn e fixed_word_word (by decide)) fun b =>
      (sim_gstr e).thenAny fun q s => (sim_gstr e).thenAny fun q' s' =>
        .ret fun m hs' hs => ?_) (by decide)
    exact ⟨congrArg₂ (Body.attach _ _) hs hs', rfl, rfl⟩
  | rerror =>
    refine Sim.within ((sim_gstr e).thenAny fun q s => .ret fun m hs => ?_) (by decide)
    exact ⟨congrArg Body.error hs, rfl, rfl⟩
  | tflush => exact sim_fixed (sim_half e) (by decide) fun _ _ => ⟨rfl, rfl, rfl⟩
  | twalk =>
    refine Sim.within (Sim.thenFixed (sim_gn e fixed_walk (by decide)) fun b =>
      Sim.unless fun hle => Sim.within (((sim_gstr e).times _).thenAny fun q s =>
        .ret fun m hs => ?_) (walk_le hle _)) (by decide)
    exact ⟨congrArg (Body.walk _ _) (map_readStr hs), rfl, rfl⟩
  | rwalk =>
    refine Sim.within (Sim.thenFixed (sim_half e) fun b =>
      Sim.unless fun hle => Sim.within (((sim_gqid e).times _).thenAny fun q s =>
        .ret fun m hs => ?_) (walk_le hle _)) (by decide)
    exact ⟨congrArg Body.qids (eq_of_forall₂ hs).symm, rfl, rfl⟩
  | topen =>
    exact sim_fixed (sim_gn e fixed_word_byte (by decide)) (by decide) fun _ _ => ⟨rfl, rfl, rfl⟩
  | ropen | rcreate =>
    exact Sim.within ((sim_gqid e).thenFixed fun q => sim_fixed (sim_word e) le_rfl
      fun _ _ => ⟨rfl, rfl, rfl⟩) (by decide)
  | tcreate =>
    refine Sim.within (Sim.thenFixed (sim_word e) fun b => (sim_gstr e).thenAny fun q s =>
      sim_fixed (sim_gn e fixed_word_byte (by decide)) le_rfl fun m c hs => ?_) (by decide)
    exact ⟨congrArg (Body.create _ · _ _) hs, rfl, rfl⟩
  | tread =>
    exact sim_fixed (sim_gn e fixed_read (by decide)) (by decide) fun _ _ => ⟨rfl, rfl, rfl⟩
  | rread =>
    exact Sim.within (Sim.thenFixed (sim_word e) fun b => sim_data (g32 b 0)
      (Nat.le_sub_one_of_lt (g32 b 0).isLt) fun m q s hs =>
        ⟨congrArg Body.data hs, rfl, rfl⟩) (by decide)
  | twrite =>
    exact Sim.within (Sim.thenFixed (sim_gn e fixed_read (by decide)) fun b => sim_data (g32 b 12)
      (Nat.le_sub_one_of_lt (g32 b 12).isLt) fun m q s hs =>
        ⟨congrArg (Body.write _ _ _) hs, rfl, rfl⟩) (by decide)
  | rwrite | tclunk | tremove | tstat =>
    exact sim_fixed (sim_word e) (by decide) fun _ _ => ⟨rfl, rfl, rfl⟩
  | rstat =>
    exact Sim.within (Sim.thenFixed (sim_half e) fun b => sim_data (g16 b 0) (g16_lt b 0).le
      fun m q s hs => ⟨congrArg Body.stat hs, rfl, rfl⟩) (by decide)
  | twstat =>
    exact Sim.within (Sim.thenFixed (sim_gn e fixed_word_half (by decide)) fun b =>
      sim_data (g16 b 4) (g16_lt b 4).le fun m q s hs =>
        ⟨congrArg (Body.wstat _) hs, rfl, rfl⟩) (by decide)
  | rflush | rclunk | rremove | rwstat =>
    exact Sim.within (.ret fun _ => ⟨rfl, rfl, rfl⟩) (by decide)

end Tortoise.P9
