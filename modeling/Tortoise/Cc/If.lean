import Tortoise.Lib.Fallible

/-!
# The preprocessor's `#if`

`eval_if` of `cc/pp.c` computes with the `long` of the machine the compiler runs
on: 64 bits on the host, 32 on the Tortoise.  The evaluator is modelled over an
arbitrary arithmetic (`Arith`), with two kinds of instance:

* `long w`, the two's complement numbers of `w` bits;
* `exact`, the integers, each with a mark that says whether the value still
  stands for the same number on every machine.

An evaluation in one arithmetic is followed by one in another whenever the
operators are (`Follows.expr`).  So the two machines agree on every expression
whose exact values stay within 32 bits where an operator can tell a wrapped
value from a wide one (`evalIf_same`), and `#if 0x7FFFFFFF + 1 < 0` is where
they do not (`evalIf_differs`).
-/

namespace Tortoise.Cc

open Lib
open BitVec

variable {k n : Nat}

/-! ## Tokens -/

/-- The binary operators of `prec_of`. -/
inductive BinOp
  | mul | div | mod | add | sub | shl | shr | lt | gt | le | ge | eq | ne
  | and | xor | or | andand | oror
deriving DecidableEq, Repr

/-- The punctuators an `#if` line can hold; `other` is every one that is not an operator here. -/
inductive Punct
  | lparen | rparen | bang | tilde | question | colon
  | op (o : BinOp)
  | other (text : List Char)
deriving DecidableEq, Repr

/-- A preprocessing token.  A number keeps its spelling until it is evaluated. -/
inductive Tok
  | num (text : List Char)
  | char (val : BitVec 32)
  | ident (name : List Char)
  | str (text : List Char)
  | punct (p : Punct)
deriving DecidableEq, Repr

/-- The ways an `#if` line is given up. -/
inductive Fatal
  | missingExpression
  | missingParen
  | missingColon
  | badToken (t : Tok)
  | divisionByZero
  | extraTokens
  | macroName
  | definedParen
  | invalidDigit (text : List Char)
  | tooLarge
  | invalidNumber (text : List Char)
  /-- The division instruction raised the machine's divide error. -/
  | divideError
  /-- C gives a shift by this count no meaning. -/
  | shiftCount
  /-- An `exact` value left the range in which the machines agree. -/
  | wide
  | fuel
deriving DecidableEq, Repr

/-! ## Numbers -/

def tolower (c : Char) : Char := if 'A' ≤ c ∧ c ≤ 'Z' then Char.ofNat (c.toNat + 32) else c

/-- The digit a character stands for, if the number goes on with it. -/
def digit (base : Nat) (ch : Char) : Option Nat :=
  let c := tolower ch
  if '0' ≤ c ∧ c ≤ '9' then some (c.toNat - '0'.toNat)
  else if base = 16 ∧ 'a' ≤ c ∧ c ≤ 'f' then some (c.toNat - 'a'.toNat + 10)
  else none

/-- The digit loop of `parse_number`: the value, whether it overflowed, and what is left. -/
def digits (base : Nat) (text : List Char) :
    List Char → BitVec 32 → Bool → Except Fatal (BitVec 32 × Bool × List Char)
  | [], v, overflow => .ok (v, overflow, [])
  | c :: cs, v, overflow =>
    match digit base c with
    | none => .ok (v, overflow, c :: cs)
    | some d =>
      if base ≤ d then .error (.invalidDigit text)
      else digits base text cs (v * BitVec.ofNat 32 base + BitVec.ofNat 32 d)
        (overflow || decide ((0xFFFFFFFF - d) / base < v.toNat))

/-- The base of a number and the text of its digits. -/
def baseOf : List Char → Nat × List Char
  | '0' :: 'x' :: cs => (16, cs)
  | '0' :: 'X' :: cs => (16, cs)
  | '0' :: cs => (8, '0' :: cs)
  | cs => (10, cs)

def isSuffix (c : Char) : Bool := tolower c = 'u' || tolower c = 'l'

def parseNumber (text : List Char) : Except Fatal (BitVec 32) := do
  let (base, cs) := baseOf text
  let (v, overflow, rest) ← digits base text cs 0 false
  if overflow then .error .tooLarge
  else if rest.all isSuffix then .ok v
  else .error (.invalidNumber text)

/-! ## The evaluator -/

/-- An arithmetic the evaluator can compute in. -/
structure Arith (α : Type) where
  /-- `(long)(int)val`. -/
  const : BitVec 32 → α
  not : α → α
  compl : α → α
  neg : α → α
  bin : BinOp → α → α → Except Fatal α
  /-- The value of `c ? a : b`, all three evaluated. -/
  cond : α → α → α → α
  /-- `v != 0`, the answer of `eval_if`. -/
  truth : α → Except Fatal Bool

def precOf : Option Tok → Option Nat
  | some (.punct (.op o)) =>
    match o with
    | .mul | .div | .mod => some 10
    | .add | .sub => some 9
    | .shl | .shr => some 8
    | .lt | .gt | .le | .ge => some 7
    | .eq | .ne => some 6
    | .and => some 5
    | .xor => some 4
    | .or => some 3
    | .andand => some 2
    | .oror => some 1
  | _ => none

/-- The operator at the front of the tokens, when it binds at least as tightly as `minp`, with
its precedence and the tokens after it. -/
def nextOp (minp : Nat) : List Tok → Option (BinOp × Nat × List Tok)
  | .punct (.op o) :: ts =>
    match precOf (some (.punct (.op o))) with
    | some p => if p < minp then none else some (o, p, ts)
    | none => none
  | _ => none

/-- Takes the punctuator `p` off the tokens. -/
def expect (p : Punct) (e : Fatal) : List Tok → Except Fatal (List Tok)
  | .punct q :: ts => if q = p then .ok ts else .error e
  | _ => .error e

section Evaluator

variable {α : Type} (A : Arith α)

mutual

def evalPrimary : Nat → List Tok → Except Fatal (α × List Tok)
  | 0, _ => .error .fuel
  | n + 1, ts =>
    match ts with
    | [] => .error .missingExpression
    | .punct .lparen :: ts => do
      let (v, ts) ← evalExpr n ts
      let ts ← expect .rparen .missingParen ts
      return (v, ts)
    | .punct .bang :: ts => do
      let (v, ts) ← evalPrimary n ts
      return (A.not v, ts)
    | .punct .tilde :: ts => do
      let (v, ts) ← evalPrimary n ts
      return (A.compl v, ts)
    | .punct (.op .sub) :: ts => do
      let (v, ts) ← evalPrimary n ts
      return (A.neg v, ts)
    | .punct (.op .add) :: ts => evalPrimary n ts
    | .num text :: ts => do
      let v ← parseNumber text
      return (A.const v, ts)
    | .char v :: ts => .ok (A.const v, ts)
    | .ident _ :: ts => .ok (A.const 0, ts)
    | t :: _ => .error (.badToken t)

def evalBin : Nat → Nat → List Tok → Except Fatal (α × List Tok)
  | 0, _, _ => .error .fuel
  | n + 1, minp, ts => do
    let (l, ts) ← evalPrimary n ts
    evalBinRest n minp l ts

/-- The `while` loop of `eval_bin`. -/
def evalBinRest : Nat → Nat → α → List Tok → Except Fatal (α × List Tok)
  | 0, _, _, _ => .error .fuel
  | n + 1, minp, l, ts =>
    match nextOp minp ts with
    | none => .ok (l, ts)
    | some (o, p, ts) => do
      let (r, ts) ← evalBin n (p + 1) ts
      let l ← A.bin o l r
      evalBinRest n minp l ts

def evalExpr : Nat → List Tok → Except Fatal (α × List Tok)
  | 0, _ => .error .fuel
  | n + 1, ts => do
    let (c, ts) ← evalBin n 1 ts
    match ts with
    | .punct .question :: ts => do
      let (a, ts) ← evalExpr n ts
      let ts ← expect .colon .missingColon ts
      let (b, ts) ← evalExpr n ts
      return (A.cond c a b, ts)
    | ts => return (c, ts)

end

/-- Replaces `defined NAME` and `defined (NAME)` by 1 or 0. -/
def replaceDefined (isMacro : List Char → Bool) : List Tok → Except Fatal (List Tok)
  | [] => .ok []
  | .ident ['d', 'e', 'f', 'i', 'n', 'e', 'd'] :: .punct .lparen :: .ident name ::
      .punct .rparen :: ts => do
      let rest ← replaceDefined isMacro ts
      return .num [if isMacro name then '1' else '0'] :: rest
  | .ident ['d', 'e', 'f', 'i', 'n', 'e', 'd'] :: .punct .lparen :: .ident _ :: _ =>
    .error .definedParen
  | .ident ['d', 'e', 'f', 'i', 'n', 'e', 'd'] :: .ident name :: ts => do
    let rest ← replaceDefined isMacro ts
    return .num [if isMacro name then '1' else '0'] :: rest
  | .ident ['d', 'e', 'f', 'i', 'n', 'e', 'd'] :: _ => .error .macroName
  | t :: ts => do
    let rest ← replaceDefined isMacro ts
    return t :: rest

/-- The value of a whole line of expanded tokens. -/
def evalLine (e : List Tok) : Except Fatal Bool :=
  if e = [] then .error .missingExpression
  else do
    let (v, rest) ← evalExpr A (4 * e.length + 3) e
    if rest = [] then A.truth v else .error .extraTokens

/-- `eval_if` on the tokens of the line; `expand` is `expand_list` under the current macros. -/
def evalIf (isMacro : List Char → Bool) (expand : List Tok → List Tok) (line : List Tok) :
    Except Fatal Bool := do
  let ts ← replaceDefined isMacro line
  evalLine A (expand ts)

end Evaluator

/-! ## The fuel suffices -/

section Fuel

variable {α : Type} {A : Arith α}

/-- The run does not stop for want of fuel, and leaves fewer than `k` tokens. -/
def Settles (k : Nat) : Except Fatal (α × List Tok) → Prop
  | .error e => e ≠ .fuel
  | .ok r => r.2.length < k

theorem Settles.bind {m : Nat} {x : Except Fatal (α × List Tok)}
    {f : α × List Tok → Except Fatal (α × List Tok)} (h : Settles k x)
    (hf : ∀ v ts, ts.length < k → Settles m (f (v, ts))) : Settles m (x >>= f) := by
  cases x with
  | error e => exact h
  | ok r => exact hf r.1 r.2 h

theorem Settles.mono {m : Nat} {x : Except Fatal (α × List Tok)} (h : Settles k x) (hkm : k ≤ m) :
    Settles m x := by
  cases x with
  | error e => exact h
  | ok r => exact h.trans_le hkm

theorem settles_expect (p : Punct) {e : Fatal} (he : e ≠ .fuel) (ts : List Tok)
    {f : List Tok → Except Fatal (α × List Tok)}
    (hf : ∀ us, us.length < ts.length → Settles k (f us)) : Settles k (expect p e ts >>= f) := by
  unfold expect
  split
  · split_ifs
    · exact hf _ (Nat.lt_succ_self _)
    · exact he
  · exact he

theorem bind_ne_fuel {β γ : Type} {x : Except Fatal β} {f : β → Except Fatal γ}
    (hx : x ≠ .error .fuel) (hf : ∀ a, f a ≠ .error .fuel) : x >>= f ≠ .error .fuel := by
  cases x with
  | error e => exact fun h => hx (congrArg Except.error (Except.error.inj h))
  | ok a => exact hf a

theorem digits_ne_fuel (base : Nat) (text cs : List Char) (v : BitVec 32) (o : Bool) :
    digits base text cs v o ≠ .error .fuel := by
  fun_induction digits base text cs v o <;> simp_all

theorem parseNumber_ne_fuel (text : List Char) : parseNumber text ≠ .error .fuel := by
  refine bind_ne_fuel (digits_ne_fuel _ _ _ _ _) fun r => ?_
  dsimp only
  split_ifs <;> simp

theorem nextOp_length {minp : Nat} {ts us : List Tok} {o : BinOp} {p : Nat}
    (h : nextOp minp ts = some (o, p, us)) : us.length < ts.length := by
  unfold nextOp at h
  split at h
  · split at h
    · split_ifs at h
      cases h
      exact Nat.lt_succ_self _
    · cases h
  · cases h

/-- Every routine settles once it has fuel in proportion to its tokens. -/
structure Enough (A : Arith α) (n : Nat) : Prop where
  primary : ∀ ts : List Tok, 4 * ts.length + 1 ≤ n → Settles ts.length (evalPrimary A n ts)
  bin : ∀ minp (ts : List Tok), 4 * ts.length + 2 ≤ n →
    Settles ts.length (evalBin A n minp ts)
  rest : ∀ minp l (ts : List Tok), 4 * ts.length + 1 ≤ n →
    Settles (ts.length + 1) (evalBinRest A n minp l ts)
  expr : ∀ ts : List Tok, 4 * ts.length + 3 ≤ n → Settles ts.length (evalExpr A n ts)

theorem primary_enough (ih : Enough A n) (ts : List Tok) (hn : 4 * ts.length + 1 ≤ n + 1) :
    Settles ts.length (evalPrimary A (n + 1) ts) := by
  have unary (f : α → α) (us : List Tok) (hn : 4 * (us.length + 1) + 1 ≤ n + 1) :
      Settles (us.length + 1) (evalPrimary A n us >>= fun r => .ok (f r.1, r.2)) :=
    (ih.primary us (by omega)).bind fun v vs hvs => hvs.trans (Nat.lt_succ_self _)
  unfold evalPrimary
  split
  · simp [Settles]
  · next us =>
    rw [List.length_cons] at hn ⊢
    refine (ih.expr us (by omega)).bind fun v vs hvs => ?_
    exact settles_expect _ (by simp) vs fun ws hws =>
      (by omega : ws.length < us.length + 1)
  · exact unary A.not _ hn
  · exact unary A.compl _ hn
  · exact unary A.neg _ hn
  · next us =>
    rw [List.length_cons] at hn ⊢
    exact (ih.primary us (by omega)).mono (by omega)
  · next text us =>
    cases h : parseNumber text with
    | error e => exact fun he => parseNumber_ne_fuel text (by rw [h, he])
    | ok v => exact Nat.lt_succ_self _
  · exact Nat.lt_succ_self _
  · exact Nat.lt_succ_self _
  · simp [Settles]

theorem bin_enough (ih : Enough A n) (minp : Nat) (ts : List Tok) (hn : 4 * ts.length + 2 ≤ n + 1) :
    Settles ts.length (evalBin A (n + 1) minp ts) := by
  rw [evalBin]
  refine (ih.primary ts (by omega)).bind fun v us hus => ?_
  exact (ih.rest minp v us (by omega)).mono hus

theorem rest_enough (hA : ∀ o l r, A.bin o l r ≠ .error .fuel) (ih : Enough A n) (minp : Nat)
    (l : α) (ts : List Tok) (hn : 4 * ts.length + 1 ≤ n + 1) :
    Settles (ts.length + 1) (evalBinRest A (n + 1) minp l ts) := by
  rw [evalBinRest]
  cases hop : nextOp minp ts with
  | none => exact Nat.lt_succ_self _
  | some found =>
    obtain ⟨o, p, us⟩ := found
    have hus := nextOp_length hop
    refine (ih.bin (p + 1) us (by omega)).bind fun r vs hvs => ?_
    cases hb : A.bin o l r with
    | error e =>
      simp only [hb]
      exact fun he => hA o l r (by rw [hb, he])
    | ok v =>
      simp only [hb]
      exact (ih.rest minp v vs (by omega)).mono (by omega)

theorem expr_enough (ih : Enough A n) (ts : List Tok) (hn : 4 * ts.length + 3 ≤ n + 1) :
    Settles ts.length (evalExpr A (n + 1) ts) := by
  rw [evalExpr]
  refine (ih.bin 1 ts (by omega)).bind fun c us hus => ?_
  show Settles ts.length (match us with | .punct .question :: us => _ | us => _)
  split
  · next us =>
    rw [List.length_cons] at hus
    refine (ih.expr us (by omega)).bind fun a vs hvs => settles_expect _ (by simp) vs ?_
    intro vs' hvs'
    exact (ih.expr vs' (by omega)).bind fun b ws hws =>
      (by omega : ws.length < ts.length)
  · exact hus

theorem enough (hA : ∀ o l r, A.bin o l r ≠ .error .fuel) (n : Nat) : Enough A n := by
  induction n with
  | zero => constructor <;> intros <;> omega
  | succ n ih =>
    exact ⟨primary_enough ih, bin_enough ih, rest_enough hA ih, expr_enough ih⟩

theorem evalLine_ne_fuel (hA : ∀ o l r, A.bin o l r ≠ .error .fuel)
    (ht : ∀ v, A.truth v ≠ .error .fuel) (e : List Tok) : evalLine A e ≠ .error .fuel := by
  rw [evalLine]
  split_ifs
  · simp
  · have h := (enough hA (4 * e.length + 3)).expr e (le_refl _)
    refine bind_ne_fuel (fun hx => ?_) fun r => ?_
    · rw [hx] at h
      exact h rfl
    · dsimp only
      split_ifs
      · exact ht r.1
      · simp

end Fuel

/-! ## The machines' arithmetic -/

/-- C's truth value as a number. -/
def ofBool {w : Nat} (b : Bool) : BitVec w := if b then 1 else 0

/-- Division and remainder: the code checks for zero, the machine for the one quotient that does
not fit. -/
def divides {w : Nat} (f : BitVec w → BitVec w → BitVec w) (l r : BitVec w) :
    Except Fatal (BitVec w) :=
  if r = 0 then .error .divisionByZero
  else if l = BitVec.intMin w ∧ r = -1 then .error .divideError
  else .ok (f l r)

/-- A shift by a count the machine's `long` has. -/
def shifts {w : Nat} (f : BitVec w → Nat → BitVec w) (l r : BitVec w) :
    Except Fatal (BitVec w) :=
  if r.toNat < w then .ok (f l r.toNat) else .error .shiftCount

/-- A `long` of `w` bits. -/
def long (w : Nat) : Arith (BitVec w) where
  const v := v.signExtend w
  not a := ofBool (a = 0)
  compl a := ~~~a
  neg a := -a
  bin
    | .mul, l, r => .ok (l * r)
    | .div, l, r => divides BitVec.sdiv l r
    | .mod, l, r => divides BitVec.srem l r
    | .add, l, r => .ok (l + r)
    | .sub, l, r => .ok (l - r)
    | .shl, l, r => shifts (fun l n => l <<< n) l r
    | .shr, l, r => shifts (fun l n => l.sshiftRight n) l r
    | .lt, l, r => .ok (ofBool (l.slt r))
    | .gt, l, r => .ok (ofBool (r.slt l))
    | .le, l, r => .ok (ofBool (l.sle r))
    | .ge, l, r => .ok (ofBool (r.sle l))
    | .eq, l, r => .ok (ofBool (l = r))
    | .ne, l, r => .ok (ofBool (l ≠ r))
    | .and, l, r => .ok (l &&& r)
    | .xor, l, r => .ok (l ^^^ r)
    | .or, l, r => .ok (l ||| r)
    | .andand, l, r => .ok (ofBool (l ≠ 0 ∧ r ≠ 0))
    | .oror, l, r => .ok (ofBool (l ≠ 0 ∨ r ≠ 0))
  cond c a b := if c = 0 then b else a
  truth v := .ok (v ≠ 0)

/-! ## Exact arithmetic -/

/-- An integer, and whether every machine's `long` holds it, up to the machine's own width. -/
structure Exact where
  val : ℤ
  same : Bool
deriving DecidableEq, Repr

variable {v : Exact}

/-- The value is the same number on every machine, without wrapping. -/
def Exact.Fits (a : Exact) : Prop := a.same = true ∧ -2 ^ 31 ≤ a.val ∧ a.val < 2 ^ 31

instance (a : Exact) : Decidable a.Fits := inferInstanceAs (Decidable (_ ∧ _ ∧ _))

namespace Exact

def ofInt (z : ℤ) : Exact := ⟨z, true⟩

/-- An operator that carries a wrapped value on. -/
def carries (f : ℤ → ℤ → ℤ) (l r : Exact) : Exact := ⟨f l.val r.val, l.same && r.same⟩

/-- An operator that shows whether a value wrapped. -/
def shows (f : ℤ → ℤ → Bool) (l r : Exact) : Exact :=
  ⟨if f l.val r.val then 1 else 0, decide (l.Fits ∧ r.Fits)⟩

def divides (f : ℤ → ℤ → ℤ) (l r : Exact) : Except Fatal Exact :=
  if l.Fits ∧ r.Fits then
    if r.val = 0 then .error .divisionByZero
    else if l.val = -2 ^ 31 ∧ r.val = -1 then .error .divideError
    else .ok (ofInt (f l.val r.val))
  else .error .wide

/-- A shift by 0 to 31; `same` is what shifting leaves of the left operand's mark. -/
def shifts (f : ℤ → Nat → ℤ) (same : Exact → Bool) (l r : Exact) : Except Fatal Exact :=
  if r.Fits then
    if 0 ≤ r.val ∧ r.val < 32 then .ok ⟨f l.val r.val.toNat, same l⟩
    else .error .shiftCount
  else .error .wide

end Exact

/-- The integers, with the marks. -/
def exact : Arith Exact where
  const v := .ofInt v.toInt
  not a := ⟨if a.val = 0 then 1 else 0, decide a.Fits⟩
  compl a := ⟨-a.val - 1, a.same⟩
  neg a := ⟨-a.val, a.same⟩
  bin
    | .mul, l, r => .ok (.carries (· * ·) l r)
    | .div, l, r => Exact.divides Int.tdiv l r
    | .mod, l, r => Exact.divides Int.tmod l r
    | .add, l, r => .ok (.carries (· + ·) l r)
    | .sub, l, r => .ok (.carries (· - ·) l r)
    | .shl, l, r => Exact.shifts (fun z n => z * 2 ^ n) (·.same) l r
    | .shr, l, r => Exact.shifts (fun z n => z >>> n) (fun l => decide l.Fits) l r
    | .lt, l, r => .ok (.shows (· < ·) l r)
    | .gt, l, r => .ok (.shows (· > ·) l r)
    | .le, l, r => .ok (.shows (· ≤ ·) l r)
    | .ge, l, r => .ok (.shows (· ≥ ·) l r)
    | .eq, l, r => .ok (.shows (· = ·) l r)
    | .ne, l, r => .ok (.shows (· ≠ ·) l r)
    | .and, l, r => .ok (.carries Int.land l r)
    | .xor, l, r => .ok (.carries Int.xor l r)
    | .or, l, r => .ok (.carries Int.lor l r)
    | .andand, l, r => .ok (.shows (fun a b => a ≠ 0 ∧ b ≠ 0) l r)
    | .oror, l, r => .ok (.shows (fun a b => a ≠ 0 ∨ b ≠ 0) l r)
  cond c a b :=
    let v := if c.val = 0 then b else a
    ⟨v.val, v.same && decide c.Fits⟩
  truth v := if v.Fits then .ok (v.val ≠ 0) else .error .wide

theorem long_bin_ne_fuel (w : Nat) (o : BinOp) (l r : BitVec w) :
    (long w).bin o l r ≠ .error .fuel := by
  cases o <;> simp [long, divides, shifts] <;> split_ifs <;> simp

theorem replaceDefined_ne_fuel (isMacro : List Char → Bool) (ts : List Tok) :
    replaceDefined isMacro ts ≠ .error .fuel := by
  fun_induction replaceDefined isMacro ts <;>
    first
    | exact bind_ne_fuel ‹_› fun _ h => by cases h
    | simp

/-- **Every `#if` line comes to an end of its own**, a truth value or one of the errors of the
source, with no more nested calls than four for each token. -/
theorem evalIf_ends (w : Nat) (isMacro : List Char → Bool) (expand : List Tok → List Tok)
    (line : List Tok) : evalIf (long w) isMacro expand line ≠ .error .fuel := by
  refine bind_ne_fuel (replaceDefined_ne_fuel isMacro line) fun ts => ?_
  exact evalLine_ne_fuel (long_bin_ne_fuel w) (fun v => by simp [long]) _

/-! ## Evaluations that follow one another -/

/-- Arithmetic `B` follows `A` along `R`: whatever `A` computes, `B` computes too. -/
structure Follows {α β : Type} (A : Arith α) (B : Arith β) (R : α → β → Prop) : Prop where
  const : ∀ v, R (A.const v) (B.const v)
  not : ∀ {a b}, R a b → R (A.not a) (B.not b)
  compl : ∀ {a b}, R a b → R (A.compl a) (B.compl b)
  neg : ∀ {a b}, R a b → R (A.neg a) (B.neg b)
  bin : ∀ o {l r v l' r'}, R l l' → R r r' → A.bin o l r = .ok v →
    ∃ v', B.bin o l' r' = .ok v' ∧ R v v'
  cond : ∀ {c a b c' a' b'}, R c c' → R a a' → R b b' → R (A.cond c a b) (B.cond c' a' b')
  truth : ∀ {v v' t}, R v v' → A.truth v = .ok t → B.truth v' = .ok t

section Follow

variable {α β : Type} {A : Arith α} {B : Arith β} {R : α → β → Prop}

/-- The run `y` ends as `x` does, with a related value and the same tokens left. -/
def RunsLike (R : α → β → Prop) (x : Except Fatal (α × List Tok))
    (y : Except Fatal (β × List Tok)) : Prop :=
  ∀ v ts, x = .ok (v, ts) → ∃ v', y = .ok (v', ts) ∧ R v v'

theorem RunsLike.ok {v : α} {v' : β} (h : R v v') (ts : List Tok) :
    RunsLike R (.ok (v, ts)) (.ok (v', ts)) := by
  intro u us hu
  cases hu
  exact ⟨v', rfl, h⟩

theorem RunsLike.error (e : Fatal) (y : Except Fatal (β × List Tok)) : RunsLike R (.error e) y := by
  intro u us hu
  cases hu

theorem RunsLike.bind {x : Except Fatal (α × List Tok)} {y : Except Fatal (β × List Tok)}
    {f : α × List Tok → Except Fatal (α × List Tok)}
    {g : β × List Tok → Except Fatal (β × List Tok)} (h : RunsLike R x y)
    (hfg : ∀ v v' ts, R v v' → RunsLike R (f (v, ts)) (g (v', ts))) :
    RunsLike R (x >>= f) (y >>= g) := by
  intro u us hu
  obtain ⟨⟨v, ts⟩, hx, hf⟩ := ok_of_bind hu
  obtain ⟨v', hy, hv⟩ := h v ts hx
  rw [hy]
  exact hfg v v' ts hv u us hf

theorem RunsLike.bind_tokens (x : Except Fatal (List Tok))
    {f : List Tok → Except Fatal (α × List Tok)} {g : List Tok → Except Fatal (β × List Tok)}
    (h : ∀ ts, RunsLike R (f ts) (g ts)) : RunsLike R (x >>= f) (x >>= g) := by
  cases x with
  | error e => exact RunsLike.error e _
  | ok ts => exact h ts

/-- All four routines of `B` run like those of `A`, with `n` of fuel. -/
structure Routines (A : Arith α) (B : Arith β) (R : α → β → Prop) (n : Nat) : Prop where
  primary : ∀ ts, RunsLike R (evalPrimary A n ts) (evalPrimary B n ts)
  bin : ∀ minp ts, RunsLike R (evalBin A n minp ts) (evalBin B n minp ts)
  rest : ∀ minp l l' ts, R l l' →
    RunsLike R (evalBinRest A n minp l ts) (evalBinRest B n minp l' ts)
  expr : ∀ ts, RunsLike R (evalExpr A n ts) (evalExpr B n ts)

namespace Follows

variable (F : Follows A B R)
include F

theorem primary_step (ih : Routines A B R n) (ts : List Tok) :
    RunsLike R (evalPrimary A (n + 1) ts) (evalPrimary B (n + 1) ts) := by
  unfold evalPrimary
  split
  · exact RunsLike.error _ _
  · refine (ih.expr _).bind fun v v' ts hv => ?_
    exact RunsLike.bind_tokens _ fun ts => RunsLike.ok hv ts
  · exact (ih.primary _).bind fun v v' ts hv => RunsLike.ok (F.not hv) ts
  · exact (ih.primary _).bind fun v v' ts hv => RunsLike.ok (F.compl hv) ts
  · exact (ih.primary _).bind fun v v' ts hv => RunsLike.ok (F.neg hv) ts
  · exact ih.primary _
  · next text ts =>
    cases parseNumber text with
    | error e => exact RunsLike.error e _
    | ok v => exact RunsLike.ok (F.const v) ts
  · exact RunsLike.ok (F.const _) _
  · exact RunsLike.ok (F.const _) _
  · exact RunsLike.error _ _

omit F in
theorem bin_step (ih : Routines A B R n) (minp : Nat) (ts : List Tok) :
    RunsLike R (evalBin A (n + 1) minp ts) (evalBin B (n + 1) minp ts) := by
  rw [evalBin, evalBin]
  exact (ih.primary ts).bind fun v v' ts hv => ih.rest minp v v' ts hv

theorem rest_step (ih : Routines A B R n) (minp : Nat) (l : α) (l' : β) (ts : List Tok)
    (hl : R l l') :
    RunsLike R (evalBinRest A (n + 1) minp l ts) (evalBinRest B (n + 1) minp l' ts) := by
  rw [evalBinRest, evalBinRest]
  cases nextOp minp ts with
  | none => exact RunsLike.ok hl ts
  | some found =>
    obtain ⟨o, p, us⟩ := found
    refine (ih.bin (p + 1) us).bind fun r r' ts hr => ?_
    intro u vs hu
    obtain ⟨v, hv, hrest⟩ := ok_of_bind hu
    obtain ⟨v', hv', hR⟩ := F.bin o hl hr hv
    obtain ⟨w, hw, hRw⟩ := ih.rest minp v v' ts hR u vs hrest
    exact ⟨w, by simp only [hv']; exact hw, hRw⟩

theorem expr_step (ih : Routines A B R n) (ts : List Tok) :
    RunsLike R (evalExpr A (n + 1) ts) (evalExpr B (n + 1) ts) := by
  rw [evalExpr, evalExpr]
  refine (ih.bin 1 ts).bind fun c c' ts hc => ?_
  show RunsLike R (match ts with | .punct .question :: ts => _ | ts => _)
    (match ts with | .punct .question :: ts => _ | ts => _)
  split
  · refine (ih.expr _).bind fun a a' ts ha => RunsLike.bind_tokens _ fun ts => ?_
    exact (ih.expr ts).bind fun b b' ts hb => RunsLike.ok (F.cond hc ha hb) ts
  · exact RunsLike.ok hc _

theorem routines (n : Nat) : Routines A B R n := by
  induction n with
  | zero =>
    constructor <;> intros <;>
      simp only [evalPrimary, evalBin, evalBinRest, evalExpr] <;> exact RunsLike.error _ _
  | succ n ih =>
    exact ⟨F.primary_step ih, bin_step ih, F.rest_step ih, F.expr_step ih⟩

/-- An answer in `A` is the answer in `B`. -/
theorem evalIf_eq {isMacro : List Char → Bool} {expand : List Tok → List Tok} {line : List Tok}
    {t : Bool} (h : evalIf A isMacro expand line = .ok t) :
    evalIf B isMacro expand line = .ok t := by
  rw [evalIf] at h ⊢
  obtain ⟨ts, hts, h⟩ := ok_of_bind h
  rw [hts]
  show evalLine B (expand ts) = .ok t
  rw [evalLine] at h ⊢
  split at h
  · cases h
  · next hne =>
    rw [if_neg hne]
    obtain ⟨⟨v, rest⟩, hv, ht⟩ := ok_of_bind h
    obtain ⟨v', hv', hR⟩ := (F.routines _).expr _ v rest hv
    rw [hv']
    change (if rest = [] then A.truth v else .error .extraTokens) = .ok t at ht
    show (if rest = [] then B.truth v' else .error .extraTokens) = .ok t
    split_ifs at ht ⊢ with hrest
    exact F.truth hR ht

end Follows

end Follow

/-! ## The machines follow the integers -/

section Machines

variable {w : Nat} {a b : Exact} {x y : BitVec w}

/-- The machine's number is the integer, cut to the machine's width. -/
def Holds (w : Nat) (a : Exact) (x : BitVec w) : Prop :=
  a.same = true → x = BitVec.ofInt w a.val

theorem Holds.toInt (hw : 32 ≤ w) (h : Holds w a x) (hf : a.Fits) : x.toInt = a.val := by
  obtain ⟨hsame, hlo, hhi⟩ := hf
  have hpow : (2 : ℤ) ^ 31 ≤ 2 ^ (w - 1) := pow_le_pow_right₀ (by norm_num) (by omega)
  rw [h hsame]
  exact toInt_ofInt_eq_self (by omega) (by omega) (by omega)

theorem eq_zero_iff (hw : 32 ≤ w) (h : Holds w a x) (hf : a.Fits) : x = 0 ↔ a.val = 0 := by
  rw [← h.toInt hw hf]
  exact (toInt_inj (y := 0)).symm.trans (by simp)

theorem holds_ofBool (t : Bool) (p : Bool) : Holds w ⟨if t then 1 else 0, p⟩ (ofBool t) := by
  intro _
  cases t <;> simp [ofBool]

/-- An operator that carries values on commutes with the cut to the width. -/
theorem holds_carries {f : ℤ → ℤ → ℤ} {g : BitVec w → BitVec w → BitVec w}
    (hfg : ∀ m n, BitVec.ofInt w (f m n) = g (BitVec.ofInt w m) (BitVec.ofInt w n))
    (ha : Holds w a x) (hb : Holds w b y) : Holds w (.carries f a b) (g x y) := by
  intro hsame
  obtain ⟨h₁, h₂⟩ := Bool.and_eq_true_iff.mp hsame
  rw [ha h₁, hb h₂]
  exact (hfg _ _).symm

/-- An operator that shows its operands is right when both fit. -/
theorem holds_shows {f : ℤ → ℤ → Bool} {g : Bool}
    (hfg : a.Fits → b.Fits → f a.val b.val = g) : Holds w (.shows f a b) (ofBool g) := by
  intro hsame
  obtain ⟨h₁, h₂⟩ := of_decide_eq_true hsame
  rw [Exact.shows, hfg h₁ h₂]
  exact holds_ofBool g true rfl

theorem getLsbD_ofInt (z : ℤ) (i : Nat) :
    (BitVec.ofInt w z).getLsbD i = (decide (i < w) && z.testBit i) := by
  cases z with
  | ofNat n =>
    rw [Int.ofNat_eq_natCast, ofInt_natCast, getLsbD_ofNat]
    rfl
  | negSucc n =>
    rw [ofInt_negSucc_eq_not_ofNat, getLsbD_not, getLsbD_ofNat]
    cases h : decide (i < w) <;> simp [Int.testBit]

/-- An operator on the bits commutes with the cut to the width. -/
theorem ofInt_bitwise {f : ℤ → ℤ → ℤ} {g : BitVec w → BitVec w → BitVec w} {b : Bool → Bool → Bool}
    (hf : ∀ m n i, (f m n).testBit i = b (m.testBit i) (n.testBit i))
    (hg : ∀ x y i, (g x y).getLsbD i = b (x.getLsbD i) (y.getLsbD i)) (m n : ℤ) :
    BitVec.ofInt w (f m n) = g (BitVec.ofInt w m) (BitVec.ofInt w n) := by
  apply eq_of_getLsbD_eq
  intro i hi
  simp only [hg, getLsbD_ofInt, hf, hi, decide_true, Bool.true_and]

theorem ofInt_mul_two_pow (z : ℤ) (n : Nat) :
    BitVec.ofInt w (z * 2 ^ n) = BitVec.ofInt w z <<< n := by
  rw [shiftLeft_eq_mul_twoPow, ofInt_mul]
  congr 1
  apply eq_of_toNat_eq
  rw [toNat_twoPow, toNat_ofInt]
  norm_cast

theorem holds_divides (hw : 32 ≤ w) {f : ℤ → ℤ → ℤ} {g : BitVec w → BitVec w → BitVec w}
    (hfg : ∀ x y, g x y = BitVec.ofInt w (f x.toInt y.toInt)) (ha : Holds w a x) (hb : Holds w b y)
    (hv : Exact.divides f a b = .ok v) : ∃ v', divides g x y = .ok v' ∧ Holds w v v' := by
  rw [Exact.divides] at hv
  split_ifs at hv with hfit hzero hmin
  cases hv
  obtain ⟨hfa, hfb⟩ := hfit
  have hx := ha.toInt hw hfa
  have hy := hb.toInt hw hfb
  refine ⟨g x y, ?_, ?_⟩
  · rw [divides, if_neg, if_neg]
    · rintro ⟨hmin', hone⟩
      have hpow : (2 : ℤ) ^ 31 ≤ 2 ^ (w - 1) := pow_le_pow_right₀ (by norm_num) (by omega)
      rw [hmin', toInt_intMin_of_pos (by omega)] at hx
      have hneg : (-1 : BitVec w) = -1#w := rfl
      rw [hone, hneg, neg_one_eq_allOnes, toInt_allOnes, if_pos (by omega)] at hy
      exact hmin ⟨by have := hfa.2.1; omega, hy.symm⟩
    · exact fun h => hzero ((eq_zero_iff hw hb hfb).mp h)
  · intro _
    rw [hfg, hx, hy]
    rfl

theorem holds_shifts (hw : 32 ≤ w) {f : ℤ → Nat → ℤ} {same : Exact → Bool}
    {g : BitVec w → Nat → BitVec w} (hfg : ∀ n, same a = true → g x n = BitVec.ofInt w (f a.val n))
    (hb : Holds w b y) (hv : Exact.shifts f same a b = .ok v) :
    ∃ v', shifts g x y = .ok v' ∧ Holds w v v' := by
  rw [Exact.shifts] at hv
  split_ifs at hv with hfit hrange
  cases hv
  have hy := hb.toInt hw hfit
  have hn : y.toNat = b.val.toNat := by
    rw [toInt_eq_toNat_cond] at hy
    have := y.isLt
    split_ifs at hy <;> omega
  refine ⟨g x y.toNat, ?_, ?_⟩
  · rw [shifts, if_pos (by omega)]
  · intro hs
    rw [hn]
    exact hfg _ hs

theorem holds_bin (hw : 32 ≤ w) (o : BinOp) (ha : Holds w a x) (hb : Holds w b y)
    (hv : exact.bin o a b = .ok v) : ∃ v', (long w).bin o x y = .ok v' ∧ Holds w v v' := by
  cases o <;> try cases hv
  case mul => exact ⟨_, rfl, holds_carries ofInt_mul ha hb⟩
  case add => exact ⟨_, rfl, holds_carries ofInt_add ha hb⟩
  case sub =>
    refine ⟨_, rfl, holds_carries (fun m n => ?_) ha hb⟩
    rw [Int.sub_eq_add_neg, ofInt_add, ofInt_neg, BitVec.sub_eq_add_neg]
  case and =>
    exact ⟨_, rfl, holds_carries (ofInt_bitwise Int.testBit_land fun _ _ _ => getLsbD_and) ha hb⟩
  case xor =>
    exact ⟨_, rfl, holds_carries (ofInt_bitwise Int.testBit_lxor fun _ _ _ => getLsbD_xor) ha hb⟩
  case or =>
    exact ⟨_, rfl, holds_carries (ofInt_bitwise Int.testBit_lor fun _ _ _ => getLsbD_or) ha hb⟩
  case div =>
    refine holds_divides hw (fun x y => ?_) ha hb hv
    rw [← toInt_inj, toInt_sdiv, toInt_ofInt]
  case mod =>
    refine holds_divides hw (fun x y => ?_) ha hb hv
    rw [← toInt_srem, ofInt_toInt]
  case shl =>
    change Exact.shifts (fun z n => z * 2 ^ n) (·.same) a b = .ok v at hv
    refine holds_shifts hw (fun n hs => ?_) hb hv
    rw [ha hs, ofInt_mul_two_pow]
  case shr =>
    change Exact.shifts (fun z n => z >>> n) (fun l => decide l.Fits) a b = .ok v at hv
    refine holds_shifts hw (fun n hs => ?_) hb hv
    rw [← ha.toInt hw (of_decide_eq_true hs), ← toInt_sshiftRight, ofInt_toInt]
  case lt | gt =>
    refine ⟨_, rfl, holds_shows fun hfa hfb => ?_⟩
    rw [slt_eq_decide, ha.toInt hw hfa, hb.toInt hw hfb]
  case le | ge =>
    refine ⟨_, rfl, holds_shows fun hfa hfb => ?_⟩
    rw [sle_eq_decide, ha.toInt hw hfa, hb.toInt hw hfb]
  case eq =>
    refine ⟨_, rfl, holds_shows fun hfa hfb => ?_⟩
    rw [← ha.toInt hw hfa, ← hb.toInt hw hfb]
    exact decide_eq_decide.mpr toInt_inj
  case ne =>
    refine ⟨_, rfl, holds_shows fun hfa hfb => ?_⟩
    rw [← ha.toInt hw hfa, ← hb.toInt hw hfb]
    exact decide_eq_decide.mpr (not_congr toInt_inj)
  case andand | oror =>
    refine ⟨_, rfl, holds_shows fun hfa hfb => decide_eq_decide.mpr ?_⟩
    rw [Ne, Ne, ← eq_zero_iff hw ha hfa, ← eq_zero_iff hw hb hfb]

/-- A machine of at least 32 bits computes what the integers do. -/
theorem long_follows_exact (hw : 32 ≤ w) : Follows exact (long w) (Holds w) where
  const v := by
    intro _
    show v.signExtend w = BitVec.ofInt w v.toInt
    rw [← toInt_signExtend_of_le hw, ofInt_toInt]
  not {a x} h := by
    intro hs
    have hf : a.Fits := of_decide_eq_true hs
    show ofBool (decide (x = 0)) = BitVec.ofInt w (if a.val = 0 then 1 else 0)
    rw [decide_eq_decide.mpr (eq_zero_iff hw h hf)]
    simpa using holds_ofBool (w := w) (decide (a.val = 0)) true rfl
  compl {a x} h := by
    intro hs
    show ~~~x = BitVec.ofInt w (-a.val - 1)
    rw [h hs, not_eq_neg_add, Int.sub_eq_add_neg, ofInt_add, ofInt_neg,
      ofInt_neg, BitVec.sub_eq_add_neg]
    rfl
  neg {a x} h := by
    intro hs
    show -x = BitVec.ofInt w (-a.val)
    rw [h hs, ofInt_neg]
  bin o _ _ _ _ _ ha hb hv := holds_bin hw o ha hb hv
  cond {c a b c' a' b'} hc ha hb := by
    intro hs
    obtain ⟨hsame, hf⟩ := Bool.and_eq_true_iff.mp hs
    have hzero := eq_zero_iff hw hc (of_decide_eq_true hf)
    show (if c' = 0 then b' else a') = BitVec.ofInt w (if c.val = 0 then b else a).val
    by_cases h : c.val = 0
    · rw [if_pos h] at hsame ⊢
      rw [if_pos (hzero.mpr h), hb hsame]
    · rw [if_neg h] at hsame ⊢
      rw [if_neg (mt hzero.mp h), ha hsame]
  truth {v v' t} hv ht := by
    change (if v.Fits then _ else _) = _ at ht
    split_ifs at ht with hf
    rw [← ht]
    exact congrArg Except.ok (decide_eq_decide.mpr (not_congr (eq_zero_iff hw hv hf)))

end Machines

/-- **Where the machines agree.**  Whatever the macros and whatever they expand to: if, in exact
integers, every operand of `/ % >>`, a comparison, `! && ||` and the condition of `?:` lies within
32 bits, as does the value of the line, no division is by zero or of the least number by -1, and
every shift is by 0 to 31, then `#if` takes the same branch on the host and on the Tortoise, and
it is the one the integers say. -/
theorem evalIf_same {isMacro : List Char → Bool} {expand : List Tok → List Tok}
    {line : List Tok} {t : Bool} (h : evalIf exact isMacro expand line = .ok t) :
    evalIf (long 64) isMacro expand line = .ok t ∧ evalIf (long 32) isMacro expand line = .ok t :=
  ⟨(long_follows_exact (by decide)).evalIf_eq h, (long_follows_exact (by decide)).evalIf_eq h⟩

/-- `#if (0x7FFFFFFF + 1 & 0xFF) == 0u && defined A` -/
def maskedLine : List Tok :=
  [.punct .lparen, .num "0x7FFFFFFF".toList, .punct (.op .add), .num "1".toList,
    .punct (.op .and), .num "0xFF".toList, .punct .rparen, .punct (.op .eq), .num "0u".toList,
    .punct (.op .andand), .ident "defined".toList, .ident "A".toList]

/-- The sum leaves 32 bits, but the `&` brings it back before the comparison looks at it. -/
theorem evalIf_same_masked :
    evalIf (long 64) (· = ['A']) id maskedLine = .ok true ∧
      evalIf (long 32) (· = ['A']) id maskedLine = .ok true :=
  evalIf_same (by decide +kernel)

/-- `#if 0x7FFFFFFF + 1 < 0` -/
def overflowLine : List Tok :=
  [.num "0x7FFFFFFF".toList, .punct (.op .add), .num "1".toList, .punct (.op .lt),
    .num "0".toList]

/-- **Where they do not.**  The line is false on the host and true on the Tortoise; nothing in it
is divided or shifted. -/
theorem evalIf_differs :
    evalIf (long 64) (fun _ => false) id overflowLine = .ok false ∧
      evalIf (long 32) (fun _ => false) id overflowLine = .ok true := by
  decide +kernel

end Tortoise.Cc
