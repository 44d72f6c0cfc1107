import Tortoise.Tools.AsText

/-!
# `strtoul` of the C library

`strtoul`, `strtol` and `atoi` of `src/lib/stdlib.c`.  A pointer into the string is what is left of
it from there on; the end of the list is the NUL.

* `Number`: the texts that are an integer in a base, as the C standard forms them.
* `form_best`, `unsigned_longest`: behind the sign, what is taken is the longest such text.
* `strtoul_longest_iff`: `strtoul` takes the longest number, **exactly if** there is one or the
  string begins with neither white space nor a sign: otherwise the end it stores is past them.
-/

namespace Tortoise.Strtoul

open AsText List

/-! ## The code -/

/-- A digit or letter whose value is below the base. -/
def inBase (base : Nat) (c : Char) : Bool :=
  (isdigit c || isalpha c) && decide (digitValue c < base)

/-- The loop over the digits. -/
def digits (base : Nat) : Text → BitVec 32 → BitVec 32 × Text
  | [], v => (v, [])
  | c :: s, v =>
    if inBase base c then
      digits base s (v * BitVec.ofNat 32 base + BitVec.ofNat 32 (digitValue c))
    else (v, c :: s)

/-- `0x` with a hexadecimal digit behind it. -/
def hexPrefixed : Text → Bool
  | '0' :: x :: d :: _ => (x == 'x' || x == 'X') && isxdigit d
  | _ => false

/-- The base in which the digits are taken when there is no `0x`. -/
def radix (base : Nat) (s : Text) : Nat :=
  if base = 0 then if s.head? = some '0' then 8 else 10 else base

/-- What follows the sign. -/
def unsigned (base : Nat) (s : Text) : BitVec 32 × Text :=
  if (base == 0 || base == 16) && hexPrefixed s then digits 16 (s.drop 2) 0
  else digits (radix base s) s 0

/-- The sign, if there is one, and what follows. -/
def sign : Text → Text × Text
  | '+' :: t => (['+'], t)
  | '-' :: t => (['-'], t)
  | t => ([], t)

def strtoul (s : Text) (base : Nat) : BitVec 32 × Text :=
  let t := sign (s.dropWhile isspace)
  let r := unsigned base t.2
  (if t.1 = ['-'] then -r.1 else r.1, r.2)

/-- A `long` has the bits of the `unsigned long`. -/
def strtol (s : Text) (base : Nat) : Int × Text :=
  ((strtoul s base).1.toInt, (strtoul s base).2)

def atoi (s : Text) : Int := (strtol s 10).1

/-! ## The numbers of the C standard -/

/-- The character stands for the digit: `0` to `9`, then the letters, small or capital. -/
def Stands (c : Char) (d : Nat) : Prop :=
  d ≤ 9 ∧ c.toNat = '0'.toNat + d ∨
    10 ≤ d ∧ d ≤ 35 ∧ (c.toNat + 10 = 'a'.toNat + d ∨ c.toNat + 10 = 'A'.toNat + d)

/-- A row of digits of a base, and the number it is. -/
inductive Numeral (base : Nat) : Text → Nat → Prop
  | nil : Numeral base [] 0
  | snoc {w : Text} {n : Nat} {c : Char} {d : Nat} : Numeral base w n → Stands c d → d < base →
      Numeral base (w ++ [c]) (n * base + d)

/-- A number without a sign.  Where no base is given, a `0` in front makes it octal. -/
inductive Form (base : Nat) : Text → Nat → Prop
  | given {w : Text} {n : Nat} : base ≠ 0 → w ≠ [] → Numeral base w n → Form base w n
  | decimal {w : Text} {n : Nat} : base = 0 → w ≠ [] → w.head? ≠ some '0' → Numeral 10 w n →
      Form base w n
  | octal {w : Text} {n : Nat} : base = 0 → w.head? = some '0' → Numeral 8 w n → Form base w n
  | hex {x : Char} {w : Text} {n : Nat} : base = 0 ∨ base = 16 → x = 'x' ∨ x = 'X' → w ≠ [] →
      Numeral 16 w n → Form base ('0' :: x :: w) n

/-- A number, with or without a sign. -/
def Number (base : Nat) (w : Text) (z : Int) : Prop :=
  ∃ n, Form base (sign w).2 n ∧ z = if (sign w).1 = ['-'] then -(n : Int) else n

/-- The text `w` is the longest beginning of `t` that `P` allows, with value `z`. -/
structure Longest {β : Type} (P : Text → β → Prop) (t w : Text) (z : β) : Prop where
  form : P w z
  pre : w <+: t
  longest : ∀ w' z', P w' z' → w' <+: t → w'.length ≤ w.length

/-- What `strtoul` is to do: return the longest number behind the white space and what follows it,
or 0 and the whole string where there is none. -/
def TakesLongest (s : Text) (base : Nat) : Prop :=
  (∀ w z, Longest (Number base) (s.dropWhile isspace) w z →
    strtoul s base = (BitVec.ofInt 32 z, (s.dropWhile isspace).drop w.length)) ∧
  ((∀ w z, Number base w z → ¬ w <+: s.dropWhile isspace) → strtoul s base = (0, s))

/-! ## Digits -/

def value (base : Nat) (w : Text) : Nat := w.foldl (fun v c => v * base + digitValue c) 0

theorem stands_iff {c : Char} {d : Nat} :
    Stands c d ↔ (isdigit c || isalpha c) = true ∧ digitValue c = d := by
  have h0 : '0'.toNat = 48 := rfl
  have ha : 'a'.toNat = 97 := rfl
  have hA : 'A'.toNat = 65 := rfl
  simp only [Stands, isdigit, isalpha, isupper, islower, digitValue, Bool.or_eq_true,
    Bool.and_eq_true, decide_eq_true_eq, h0, ha, hA]
  split_ifs <;> omega

/-- The digits of the code are those of the standard. -/
theorem numeral_iff {base : Nat} {w : Text} {n : Nat} :
    Numeral base w n ↔ (∀ c ∈ w, inBase base c) ∧ n = value base w := by
  have hin {c : Char} : inBase base c = true ↔ Stands c (digitValue c) ∧ digitValue c < base := by
    rw [stands_iff, inBase, Bool.and_eq_true, decide_eq_true_eq, and_iff_left rfl]
  have hsnoc (w : Text) (c : Char) :
      value base (w ++ [c]) = value base w * base + digitValue c := by
    rw [value, foldl_append]
    rfl
  constructor
  · intro h
    induction h with
    | nil => exact ⟨nofun, rfl⟩
    | snoc _ hc hd ih =>
      obtain ⟨hall, rfl⟩ := ih
      obtain ⟨-, rfl⟩ := stands_iff.1 hc
      refine ⟨fun c hmem => ?_, (hsnoc ..).symm⟩
      rcases mem_append.1 hmem with hmem | hmem
      · exact hall c hmem
      · rw [mem_singleton.1 hmem, hin]
        exact ⟨hc, hd⟩
  · rintro ⟨hall, rfl⟩
    induction w using reverseRecOn with
    | nil => exact .nil
    | append_singleton w c ih =>
      obtain ⟨hc, hd⟩ := hin.1 (hall c (by simp))
      rw [hsnoc]
      exact .snoc (ih fun c hc => hall c (by simp [hc])) hc hd

/-- What the code reads without `0x` is a number. -/
theorem form_digits {base : Nat} {w : Text} (hne : w ≠ [])
    (hall : ∀ c ∈ w, inBase (radix base w) c) : Form base w (value (radix base w) w) := by
  have h := numeral_iff.2 ⟨hall, rfl⟩
  unfold radix at h ⊢
  split_ifs at h ⊢ with h0 h1
  · exact .octal h0 h1 h
  · exact .decimal h0 hne h1 h
  · exact .given h0 hne h

/-- A number is digits in the base that the code chooses, or `0x` and hexadecimal digits. -/
theorem form_cases {base : Nat} {w : Text} {n : Nat} (h : Form base w n) :
    (w ≠ [] ∧ (∀ c ∈ w, inBase (radix base w) c) ∧ n = value (radix base w) w) ∨
      ∃ x v, w = '0' :: x :: v ∧ (base = 0 ∨ base = 16) ∧ (x = 'x' ∨ x = 'X') ∧ v ≠ [] ∧
        (∀ c ∈ v, inBase 16 c) ∧ n = value 16 v := by
  cases h with
  | given h0 hne h => exact .inl ⟨hne, by rw [radix, if_neg h0]; exact numeral_iff.1 h⟩
  | decimal h0 hne h1 h =>
    exact .inl ⟨hne, by rw [radix, if_pos h0, if_neg h1]; exact numeral_iff.1 h⟩
  | octal h0 h1 h =>
    have hne : w ≠ [] := by
      rintro rfl
      cases h1
    exact .inl ⟨hne, by rw [radix, if_pos h0, if_pos h1]; exact numeral_iff.1 h⟩
  | hex hb hx hne h => exact .inr ⟨_, _, rfl, hb, hx, hne, numeral_iff.1 h⟩

theorem digits_eq (base : Nat) (s : Text) :
    digits base s 0 =
      (BitVec.ofNat 32 (value base (s.takeWhile (inBase base))), s.dropWhile (inBase base)) := by
  have h : ∀ v, digits base s (BitVec.ofNat 32 v) =
      (BitVec.ofNat 32 ((s.takeWhile (inBase base)).foldl (fun v c => v * base + digitValue c) v),
        s.dropWhile (inBase base)) := by
    induction s with
    | nil => exact fun v => rfl
    | cons c s ih =>
      intro v
      by_cases hc : inBase base c
      · rw [digits, if_pos hc, takeWhile_cons_of_pos hc, dropWhile_cons_of_pos hc, foldl_cons, ← ih,
          BitVec.ofNat_add, BitVec.ofNat_mul]
      · rw [digits, if_neg hc, takeWhile_cons_of_neg hc, dropWhile_cons_of_neg hc]
        rfl
  exact h 0

theorem prefix_takeWhile {α : Type} {p : α → Bool} {w t : List α} (hw : ∀ c ∈ w, p c)
    (h : w <+: t) : w <+: t.takeWhile p := by
  obtain ⟨r, rfl⟩ := h
  rw [takeWhile_append_of_pos hw]
  exact prefix_append w _

theorem drop_takeWhile {α : Type} (p : α → Bool) (t : List α) :
    t.drop (t.takeWhile p).length = t.dropWhile p := by
  nth_rewrite 2 [← takeWhile_append_dropWhile (p := p) (l := t)]
  exact drop_left

theorem radix_congr {base : Nat} {w t : Text} (hw : w ≠ []) (h : w <+: t) :
    radix base w = radix base t := by
  obtain ⟨r, rfl⟩ := h
  obtain ⟨c, w, rfl⟩ := exists_cons_of_ne_nil hw
  rfl

theorem inBase_sixteen (c : Char) : inBase 16 c = isxdigit c := by
  unfold inBase isxdigit digitValue isalpha isdigit isupper islower
  grind

/-- No base up to 16 has the digit `x`. -/
theorem not_inBase_x {base : Nat} (hb : base ≤ 16) {x : Char} (hx : x = 'x' ∨ x = 'X') :
    inBase base x = false := by
  have h : digitValue x = 33 := by rcases hx with rfl | rfl <;> decide
  simp [inBase, h]
  omega

/-- The longest number at the beginning of a text that has no sign, and its value. -/
def best (base : Nat) (t : Text) : Text × Nat :=
  if (base == 0 || base == 16) && hexPrefixed t then
    (t.take 2 ++ (t.drop 2).takeWhile (inBase 16), value 16 ((t.drop 2).takeWhile (inBase 16)))
  else
    (t.takeWhile (inBase (radix base t)), value (radix base t) (t.takeWhile (inBase (radix base t))))

theorem hexPrefixed_iff {t : Text} : hexPrefixed t ↔
    ∃ x d r, t = '0' :: x :: d :: r ∧ (x = 'x' ∨ x = 'X') ∧ inBase 16 d := by
  unfold hexPrefixed
  split
  · simp [inBase_sixteen]
  case h_2 h =>
    refine ⟨nofun, ?_⟩
    rintro ⟨x, d, r, rfl, -⟩
    exact (h x d r rfl).elim

theorem unsigned_eq (base : Nat) (t : Text) :
    unsigned base t = (BitVec.ofNat 32 (best base t).2, t.drop (best base t).1.length) := by
  unfold unsigned best
  split_ifs with h
  · obtain ⟨x, d, r, rfl, -⟩ := hexPrefixed_iff.mp (Bool.and_eq_true_iff.mp h).2
    simpa [drop_takeWhile] using digits_eq 16 (d :: r)
  · rw [digits_eq, drop_takeWhile]

theorem best_spec (base : Nat) (t : Text) : best base t = ([], 0) ∨
    Form base (best base t).1 (best base t).2 ∧ (best base t).1 <+: t := by
  unfold best
  split_ifs with hx
  · rw [Bool.and_eq_true_iff, hexPrefixed_iff] at hx
    obtain ⟨hb, x, d, r, rfl, hx, hd⟩ := hx
    refine .inr ⟨.hex (by simpa using hb) hx (by simp [hd])
      (numeral_iff.2 ⟨fun c => mem_takeWhile_imp, rfl⟩), ?_⟩
    simpa using takeWhile_prefix _
  · generalize hds : t.takeWhile (inBase (radix base t)) = ds
    rcases eq_or_ne ds [] with rfl | hne
    · exact .inl rfl
    have hp : ds <+: t := hds ▸ takeWhile_prefix _
    rw [← radix_congr hne hp] at hds ⊢
    exact .inr ⟨form_digits hne fun c hc => mem_takeWhile_imp (hds ▸ hc), hp⟩

/-- Every number at the beginning of the text is part of the longest. -/
theorem form_best {base : Nat} {t w : Text} {n : Nat} (h : Form base w n) (hw : w <+: t) :
    w <+: (best base t).1 ∧ (w = (best base t).1 → n = (best base t).2) := by
  unfold best
  split_ifs with hx
  · rw [Bool.and_eq_true_iff, hexPrefixed_iff] at hx
    obtain ⟨hb, x, d, r, rfl, hx, hd⟩ := hx
    rcases form_cases h with ⟨-, hall, rfl⟩ | ⟨y, w, rfl, -, -, -, hall, rfl⟩
    · -- the `x` is no digit, so these digits are at most the 0 before it
      have hr : radix base w ≤ 16 := by
        unfold radix
        grind
      have hp : w <+: ['0'] := by
        refine (prefix_takeWhile hall hw).trans ?_
        rw [takeWhile_cons, takeWhile_cons_of_neg (by simp [not_inBase_x hr hx])]
        split <;> simp
      exact ⟨hp.trans (by simp), fun e => by simpa [e] using hp.length_le⟩
    · obtain ⟨rfl, hw'⟩ := cons_prefix_cons.mp (cons_prefix_cons.mp hw).2
      have hp := prefix_takeWhile hall hw'
      exact ⟨by simpa using hp, fun e => congrArg _ (by simpa using e)⟩
  · rcases form_cases h with ⟨hne, hall, rfl⟩ | ⟨x, w, rfl, hb, hx', hne, hall, rfl⟩
    · rw [radix_congr hne hw] at hall ⊢
      exact ⟨prefix_takeWhile hall hw, fun e => congrArg _ e⟩
    · obtain ⟨u, rfl⟩ := hw
      obtain ⟨c, w, rfl⟩ := exists_cons_of_ne_nil hne
      refine absurd (Bool.and_eq_true_iff.mpr ⟨by simpa using hb, hexPrefixed_iff.mpr ?_⟩) hx
      exact ⟨x, c, w ++ u, rfl, hx', hall c mem_cons_self⟩

theorem form_ne_nil {base : Nat} {w : Text} {n : Nat} (h : Form base w n) : w ≠ [] := by
  rcases form_cases h with ⟨hne, -⟩ | ⟨x, v, rfl, -⟩
  · exact hne
  · simp

theorem unsigned_longest {base : Nat} {t w : Text} {n : Nat} (h : Longest (Form base) t w n) :
    unsigned base t = (BitVec.ofNat 32 n, t.drop w.length) := by
  obtain ⟨hp, hn⟩ := form_best h.form h.pre
  have e : w = (best base t).1 := by
    rcases best_spec base t with hb | ⟨hb, hbt⟩
    · rw [hb] at hp
      exact absurd (prefix_nil.mp hp) (form_ne_nil h.form)
    · exact hp.eq_of_length_le (h.longest _ _ hb hbt)
  rw [unsigned_eq, ← e, hn e]

theorem unsigned_none {base : Nat} {t : Text} (h : ∀ w n, Form base w n → ¬ w <+: t) :
    unsigned base t = (0, t) := by
  rcases best_spec base t with hb | ⟨hb, hbt⟩
  · rw [unsigned_eq, hb]
    rfl
  · exact absurd hbt (h _ _ hb)

/-! ## Signs -/

theorem sign_append (t : Text) : (sign t).1 ++ (sign t).2 = t := by
  unfold sign
  split <;> rfl

theorem prefix_sign {w t : Text} (hw : w ≠ []) (h : w <+: t) :
    (sign w).1 = (sign t).1 ∧ (sign w).2 <+: (sign t).2 := by
  obtain ⟨c, w, rfl⟩ := exists_cons_of_ne_nil hw
  obtain ⟨u, rfl⟩ := h
  rw [cons_append]
  by_cases hp : c = '+'
  · subst hp
    exact ⟨rfl, prefix_append ..⟩
  by_cases hm : c = '-'
  · subst hm
    exact ⟨rfl, prefix_append ..⟩
  · simp [sign, hp, hm]

theorem number_ne_nil {base : Nat} {w : Text} {z : Int} (h : Number base w z) : w ≠ [] := by
  rintro rfl
  obtain ⟨n, hn, -⟩ := h
  exact form_ne_nil hn rfl

/-- The numbers at the beginning of a text are those behind its sign. -/
theorem number_of_form {base : Nat} {t u : Text} {n : Nat} (h : Form base u n)
    (hu : u <+: (sign t).2) : ∃ z, Number base ((sign t).1 ++ u) z ∧ (sign t).1 ++ u <+: t := by
  have hp : (sign t).1 ++ u <+: t := by
    nth_rewrite 2 [← sign_append t]
    exact (prefix_append_right_inj _).mpr hu
  have hs := (prefix_sign (by simp [form_ne_nil h]) hp).1
  have h2 := sign_append ((sign t).1 ++ u)
  rw [hs, append_cancel_left_eq] at h2
  exact ⟨_, ⟨n, by rwa [h2], rfl⟩, hp⟩

theorem strtoul_longest {s w : Text} {base : Nat} {z : Int}
    (h : Longest (Number base) (s.dropWhile isspace) w z) :
    strtoul s base = (BitVec.ofInt 32 z, (s.dropWhile isspace).drop w.length) := by
  obtain ⟨n, hn, rfl⟩ := h.form
  obtain ⟨hs, hp⟩ := prefix_sign (number_ne_nil h.form) h.pre
  have hl : ∀ v : Text, v.length = (sign v).1.length + (sign v).2.length := fun v => by
    rw [← length_append, sign_append]
  have hlong : Longest (Form base) (sign (s.dropWhile isspace)).2 (sign w).2 n := by
    refine ⟨hn, hp, fun u m hu hut => ?_⟩
    obtain ⟨z, hz, hpre⟩ := number_of_form hu hut
    have := h.longest _ _ hz hpre
    rw [length_append, hl w, hs] at this
    omega
  have hdrop : (s.dropWhile isspace).drop w.length
      = (sign (s.dropWhile isspace)).2.drop (sign w).2.length := by
    nth_rewrite 1 [← sign_append (s.dropWhile isspace)]
    rw [hl w, hs, ← drop_drop, drop_left]
  rw [strtoul, unsigned_longest hlong, hs, hdrop]
  split_ifs <;> simp [BitVec.ofInt_neg]

theorem strtoul_none {s : Text} {base : Nat}
    (h : ∀ w z, Number base w z → ¬ w <+: s.dropWhile isspace) :
    strtoul s base = (0, (sign (s.dropWhile isspace)).2) := by
  rw [strtoul, unsigned_none fun u n hu hut => ?_]
  · simp
  · obtain ⟨z, hz, hpre⟩ := number_of_form hu hut
    exact h _ _ hz hpre

theorem sign_dropWhile_eq_iff (s : Text) : (sign (s.dropWhile isspace)).2 = s ↔
    ∀ c, s.head? = some c → isspace c = false ∧ c ≠ '+' ∧ c ≠ '-' := by
  cases s with
  | nil => simp [sign]
  | cons c s =>
    by_cases hc : isspace c
    · have h₁ := congrArg length (sign_append (s.dropWhile isspace))
      have h₂ := (dropWhile_suffix (l := s) isspace).length_le
      have hne : (sign (s.dropWhile isspace)).2 ≠ c :: s := fun e => by
        have h := congrArg length e
        simp only [length_append, length_cons] at *
        omega
      simp [hc, hne]
    · by_cases hp : c = '+'
      · simp [hp, sign, isspace]
      by_cases hm : c = '-'
      · simp [hm, sign, isspace]
      · simp [hc, sign, hp, hm]

/-- **`strtoul` takes the longest number exactly if** the string has a number behind its white space
or begins with neither white space nor a sign. -/
theorem strtoul_longest_iff (s : Text) (base : Nat) : TakesLongest s base ↔
    (∃ w z, Number base w z ∧ w <+: s.dropWhile isspace) ∨
      ∀ c, s.head? = some c → isspace c = false ∧ c ≠ '+' ∧ c ≠ '-' := by
  rw [← sign_dropWhile_eq_iff]
  constructor
  · intro h
    by_contra hn
    push Not at hn
    have he := h.2 hn.1
    rw [strtoul_none hn.1] at he
    exact hn.2 (Prod.mk.inj he).2
  · intro h
    refine ⟨fun w z => strtoul_longest, fun hn => ?_⟩
    rcases h with ⟨w, z, hw, hpre⟩ | h
    · exact absurd hpre (hn w z hw)
    · rw [strtoul_none hn, h]

/-- A sign alone is skipped: there is no number, and the end stored is not the beginning. -/
theorem lone_sign_skipped : ¬ TakesLongest ['-'] 10 := by
  intro h
  have hn : ∀ w z, Number 10 w z → ¬ w <+: ['-'] := by
    rintro w z ⟨n, hn, -⟩ ⟨u, hu⟩
    match w with
    | [] => exact form_ne_nil hn rfl
    | [c] =>
      cases hu
      exact form_ne_nil hn rfl
    | _ :: _ :: _ => simp at hu
  exact absurd (h.2 hn) (by decide)

end Tortoise.Strtoul
