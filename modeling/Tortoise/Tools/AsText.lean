import Tortoise.Lib.Fallible

/-!
# The text of an assembler source

`src/assembler/assembler.c` from the characters of a file to the bytes of a section: lines,
comments, labels, macros and inclusion, then the statements that are read from the lines.

* `stripComment`, `rtrim`, `splitArgs`: the scanners, each with its own view of quoted text.
* `processLine`, `expandMacro`, `readFile`: the lines that the passes go through.
* `escChar`, `parseString`: the characters of a quoted text.
* `eval`: expressions, read and evaluated at once.
* `secPut`, `statement`, `runLines`: a pass over the lines, for object files and flat ones.

A text is a list of characters with codes below 256, without the NUL at its end.  Where the source
runs over the end of a buffer the model has the error `overrun`.  Labels, instructions and the
directives that hold no data are a parameter, with the symbol table that belongs to them.
-/

namespace Tortoise.AsText

open Function Lib

abbrev Byte := BitVec 8

abbrev Word := BitVec 32

abbrev Text := List Char

/-- The errors of `fatal`. -/
inductive Fatal where
  | lineTooLong
  | macroLineTooLong
  | overrun
  | tooManyOperands
  | tooManyArguments (m : Text)
  | macroTooDeep
  | nestedMacro
  | macroNameExpected
  | tooManyParameters
  | badParameter (a : Text)
  | endmWithoutMacro
  | includeNeedsName
  | unterminatedFileName
  | includeTooDeep
  | cannotOpen (path : Text)
  | tooManyFiles
  | missingEndm
  | unknownEscape (c : Option Char)
  | unterminatedLiteral
  | stringExpected
  | unterminatedString
  | junkAfterString
  | missingParen
  | badCharLiteral
  | badHexNumber
  | badDigit (c : Char)
  | nameTooLong
  | expressionExpected
  | unexpected (c : Char)
  | junkAfterExpression (t : Text)
  | expressionTooDeep
  | divisionByZero
  | trap
  | relocatableOperand
  | twoRelocatable
  | badDifference
  | relocatableByte
  | dataInBss
  | outputTooLarge
  | syntaxError
  /-- An error of the statements that are left out. -/
  | rest
  deriving DecidableEq

/-! ## Characters -/

def quote : Char := '"'

def apostrophe : Char := Char.ofNat 39

def backslash : Char := Char.ofNat 92

/-- `isspace` of the C locale. -/
def isspace (c : Char) : Bool := c == ' ' || (decide (9 ≤ c.toNat) && decide (c.toNat ≤ 13))

def isdigit (c : Char) : Bool := decide (48 ≤ c.toNat) && decide (c.toNat ≤ 57)

def isupper (c : Char) : Bool := decide (65 ≤ c.toNat) && decide (c.toNat ≤ 90)

def islower (c : Char) : Bool := decide (97 ≤ c.toNat) && decide (c.toNat ≤ 122)

def isalpha (c : Char) : Bool := isupper c || islower c

def isalnum (c : Char) : Bool := isalpha c || isdigit c

def isxdigit (c : Char) : Bool :=
  isdigit c || (decide (65 ≤ c.toNat) && decide (c.toNat ≤ 70)) ||
    (decide (97 ≤ c.toNat) && decide (c.toNat ≤ 102))

def toupper (c : Char) : Char := if islower c then Char.ofNat (c.toNat - 32) else c

/-- The value of a digit or letter, `isdigit(c) ? c - '0' : tolower(c) - 'a' + 10`. -/
def digitValue (c : Char) : Nat :=
  if isdigit c then c.toNat - 48 else if isupper c then c.toNat - 65 + 10 else c.toNat - 97 + 10

def isId0 (c : Char) : Bool := isalpha c || c == '_' || c == '.' || c == '$'

def isId (c : Char) : Bool := isalnum c || c == '_' || c == '.' || c == '$'

def isBlank (c : Char) : Bool := c == ' ' || c == '\t' || c == '\r' || c == '\n'

def skipws (t : Text) : Text := t.dropWhile isBlank

def ieq (a b : Text) : Bool := a.map toupper == b.map toupper

/-! ## Lines -/

/-- `strip_comment`, inside the quote `q` if there is one. -/
def stripComment : Option Char → Text → Text
  | _, [] => []
  | some q, c :: cs =>
    if c = backslash then
      match cs with
      | [] => [c]
      | d :: ds => c :: d :: stripComment (some q) ds
    else c :: stripComment (if c = q then none else some q) cs
  | none, c :: cs =>
    if c = quote ∨ c = apostrophe then c :: stripComment (some c) cs
    else if c = ';' then []
    else c :: stripComment none cs

def rtrim (t : Text) : Text := (t.reverse.dropWhile isspace).reverse

/-- Where `split_args` stands: the open quote, the depth of brackets and the operand so far, its
last character first. -/
structure Split where
  q : Option Char
  depth : Int
  start : Text

/-- The operand that ends. -/
def Split.operand (x : Split) : Text := rtrim (skipws x.start.reverse)

/-- The loop of `split_args`; inside a quote it does not see the end of the text. -/
def splitLoop (max : Nat) : List Text → Split → Text → Except Fatal (List Text)
  | out, x, [] =>
    if x.q.isSome then .error .overrun
    else if out.length = max then .error .tooManyOperands
    else .ok (out ++ [x.operand])
  | out, x, c :: cs =>
    match x.q with
    | some q =>
      if c = backslash then
        match cs with
        | [] => splitLoop max out { x with start := c :: x.start } []
        | d :: ds => splitLoop max out { x with start := d :: c :: x.start } ds
      else
        splitLoop max out { x with q := if c = q then none else some q, start := c :: x.start } cs
    | none =>
      if c = quote ∨ c = apostrophe then
        splitLoop max out { x with q := some c, start := c :: x.start } cs
      else if c = '(' ∨ c = '[' then
        splitLoop max out { x with depth := x.depth + 1, start := c :: x.start } cs
      else if c = ')' ∨ c = ']' then
        splitLoop max out { x with depth := x.depth - 1, start := c :: x.start } cs
      else if c = ',' ∧ x.depth = 0 then
        if out.length = max then .error .tooManyOperands
        else splitLoop max (out ++ [x.operand]) { x with start := [] } cs
      else splitLoop max out { x with start := c :: x.start } cs

def splitArgs (max : Nat) (t : Text) : Except Fatal (List Text) :=
  if skipws t = [] then .ok [] else splitLoop max [] ⟨none, 0, []⟩ (skipws t)

structure Macro where
  name : Text
  args : List Text
  body : List Text

/-- What reading the files has left: the macros, whether the last of them is still open, the lines,
the number of expansions and of files. -/
structure Reader where
  macros : List Macro
  defmac : Bool
  lines : List Text
  uniq : Nat
  nfiles : Nat

def Reader.addLine (r : Reader) (t : Text) : Reader := { r with lines := r.lines ++ [t] }

def Reader.findMacro (r : Reader) (name : Text) : Option Macro :=
  r.macros.find? fun m => m.name == name

/-- A line of the body for the macro that is open. -/
def Reader.addBody (r : Reader) (t : Text) : Reader :=
  { r with macros := r.macros.modifyLast fun m => { m with body := m.body ++ [t] } }

/-- The identifier of at most `k` characters at the start. -/
def word (k : Nat) (t : Text) : Text := (t.takeWhile isId).take k

def bufSize : Nat := 4096

/-- The last of the parameters with this name, with its argument or nothing. -/
def argument (m : Macro) (args : List Text) (nm : Text) : Option Text :=
  (m.args.zipIdx.reverse.find? fun a => a.1 == nm).map fun a => args.getD a.2 []

/-- A line of the body with the arguments in the place of the parameters, after what is already
in the buffer. -/
def substitute (m : Macro) (args : List Text) (id : Nat) : Nat → Text → Text → Except Fatal Text
  | _, buf, [] => .ok buf
  | 0, buf, _ => .ok buf
  | n + 1, buf, c :: cs =>
    let nm := (cs.takeWhile fun c => isId c && c != '.').take 63
    if c = backslash ∧ cs.head? = some '@' then
      -- the number goes into the buffer unchecked
      let buf := buf ++ (toString id).toList
      if bufSize ≤ buf.length then .error .overrun else substitute m args id n buf cs.tail
    else if c = backslash ∧ cs.head?.any isId0 ∧ (argument m args nm).isSome then
      let a := (argument m args nm).getD []
      if bufSize - 1 ≤ buf.length + a.length then .error .macroLineTooLong
      else substitute m args id n (buf ++ a) (cs.drop nm.length)
    else if bufSize - 2 ≤ buf.length then .error .macroLineTooLong
    else substitute m args id n (buf ++ [c]) cs

/-- The files that `open_inc` finds, from the file that includes them. -/
structure Host where
  openInc : Option Text → Text → Option (Text × Text)

/-- `fgets` with a buffer of 4096 characters: the line and what follows. -/
def fgets (t : Text) : Text × Text :=
  let l := (t.take (bufSize - 1)).takeWhile fun c => c != '\n'
  if l.length < bufSize - 1 ∧ l.length < t.length then (l ++ ['\n'], t.drop (l.length + 1))
  else (l, t.drop l.length)

/-- The loop of `read_file`. -/
def readLines (process : Text → Reader → Except Fatal Reader) :
    Nat → Text → Reader → Except Fatal Reader
  | 0, _, r => .ok r
  | n + 1, t, r =>
    if t = [] then .ok r
    else if '\n' ∉ (fgets t).1 ∧ (fgets t).1.length = bufSize - 1 then .error .lineTooLong
    else do
      let r ← process (fgets t).1 r
      readLines process n (fgets t).2 r

/-- The file is read from its first line on; a name has at most 1023 characters. -/
def openFile (h : Host) (cur : Option Text) (path : Text) (r : Reader) :
    Except Fatal (Text × Text) :=
  if 1023 < path.length then .error .overrun
  else
    match h.openInc cur path with
    | none => .error (.cannotOpen path)
    | some f => if r.nfiles = 256 then .error .tooManyFiles else .ok f

/-- `read_file` below the first level. -/
def includeFile (h : Host) (process : Text → Text → Reader → Except Fatal Reader)
    (cur : Option Text) (path : Text) (r : Reader) : Except Fatal Reader := do
  let (name, t) ← openFile h cur path r
  readLines (process name) t.length t { r with nfiles := r.nfiles + 1 }

/-- The expansion of the lines of a body. -/
def expandLines (process : Text → Reader → Except Fatal Reader) (m : Macro) (args : List Text)
    (id : Nat) : List Text → Reader → Except Fatal Reader
  | [], r => .ok r
  | l :: ls, r => do
    let buf ← substitute m args id l.length [] l
    let r ← process buf r
    expandLines process m args id ls r

def expandMacro (process : Text → Reader → Except Fatal Reader) (depth : Nat) (m : Macro)
    (argstr : Text) (r : Reader) : Except Fatal Reader :=
  if 32 < depth then .error .macroTooDeep
  else do
    let args ← splitArgs 16 argstr
    if m.args.length < args.length then .error (.tooManyArguments m.name)
    else expandLines process m args r.uniq m.body { r with uniq := r.uniq + 1 }

/-- A line of a macro that is being defined. -/
def defineLine (buf p : Text) (r : Reader) : Except Fatal Reader :=
  if ieq (word 255 p) ".endm".toList then .ok { r with defmac := false }
  else if ieq (word 255 p) ".macro".toList then .error .nestedMacro
  else .ok (r.addBody buf)

/-- The rest of a `.macro` line. -/
def beginMacro (q : Text) (r : Reader) : Except Fatal Reader := do
  let nm := skipws q
  if !nm.head?.any isId0 then .error .macroNameExpected
  else
    let args ← splitArgs 17 ((nm.dropWhile isId).drop 1)
    if 16 < args.length then .error .tooManyParameters
    else
      match args.find? fun a => !a.head?.any isId0 with
      | some a => .error (.badParameter a)
      | none => .ok { r with
          macros := r.macros ++ [⟨nm.takeWhile isId, args, []⟩]
          defmac := true }

/-- The label at the start of a line, and the text after it. -/
def labelOf (p : Text) : Option (Text × Text) :=
  let c := skipws (p.dropWhile isId)
  if p.head?.any isId0 ∧ c.head? = some ':' then some (p.takeWhile isId, skipws c.tail) else none

/-- A line without its label. -/
def processWord (h : Host) (process : Nat → Option Text → Text → Reader → Except Fatal Reader)
    (depth : Nat) (cur : Option Text) (p : Text) (r : Reader) : Except Fatal Reader :=
  let w := word 255 p
  let q := p.drop w.length
  if ieq w ".macro".toList then beginMacro q r
  else if ieq w ".endm".toList then .error .endmWithoutMacro
  else if ieq w ".include".toList then
    let s := skipws q
    if s.head? ≠ some quote then .error .includeNeedsName
    else if quote ∉ s.tail then .error .unterminatedFileName
    else if 16 ≤ depth then .error .includeTooDeep
    else
      includeFile h (fun name => process (depth + 1) (some name)) cur
        (s.tail.takeWhile fun c => c != quote) r
  else
    match r.findMacro w with
    | some m => expandMacro (process (depth + 1) cur) depth m q r
    | none => .ok (r.addLine p)

/-- `process_line`.  No line is more than 33 levels deep. -/
def processLine (h : Host) : Nat → Nat → Option Text → Text → Reader → Except Fatal Reader
  | 0, _, _, _, _ => .error .macroTooDeep
  | n + 1, depth, cur, text, r =>
    if bufSize ≤ text.length then .error .lineTooLong
    else
      let buf := rtrim (stripComment none text)
      let p := skipws buf
      if r.defmac then defineLine buf p r
      else if p = [] then .ok r
      else
        match labelOf p with
        | none => processWord h (processLine h n) depth cur p r
        | some (l, p') =>
          if 254 < l.length then .error .overrun
          else if p' = [] then .ok (r.addLine (l ++ [':']))
          else processWord h (processLine h n) depth cur p' (r.addLine (l ++ [':']))

/-- The levels of inclusion and expansion. -/
def levels : Nat := 34

/-- `read_file` of the source itself, with the text of the file. -/
def readFile (h : Host) (name t : Text) (r : Reader) : Except Fatal Reader := do
  let r ← readLines (processLine h levels 0 (some name)) t.length t
    { r with nfiles := r.nfiles + 1 }
  if r.defmac then .error .missingEndm else .ok r

/-- What there is before any file is read. -/
def Reader.start : Reader := ⟨[], false, [], 0, 0⟩

/-! ## Quoted text -/

def charByte (c : Char) : Byte := BitVec.ofNat 8 c.toNat

/-- At most `k` hexadecimal digits. -/
def hexDigits : Nat → Nat → Text → Nat × Text
  | k + 1, v, c :: cs => if isxdigit c then hexDigits k (v * 16 + digitValue c) cs else (v, c :: cs)
  | _, v, cs => (v, cs)

/-- What follows a backslash. -/
def escape : Text → Except Fatal (Byte × Text)
  | [] => .error (.unknownEscape none)
  | c :: cs =>
    if c = 'n' then .ok (10, cs)
    else if c = 't' then .ok (9, cs)
    else if c = 'r' then .ok (13, cs)
    else if c = 'b' then .ok (8, cs)
    else if c = 'a' then .ok (7, cs)
    else if c = 'f' then .ok (12, cs)
    else if c = 'v' then .ok (11, cs)
    else if c = '0' then .ok (0, cs)
    else if c = backslash ∨ c = apostrophe ∨ c = quote then .ok (charByte c, cs)
    else if c = 'x' then .ok (BitVec.ofNat 8 (hexDigits 2 0 cs).1, (hexDigits 2 0 cs).2)
    else .error (.unknownEscape (some c))

def escChar : Text → Except Fatal (Byte × Text)
  | [] => .error .unterminatedLiteral
  | c :: cs => if c = backslash then escape cs else .ok (charByte c, cs)

/-! ## Expressions -/

inductive Pass where
  | one
  | two
  deriving DecidableEq

inductive Sec where
  | text
  | data
  | bss
  deriving DecidableEq

/-- `Val`: a number, relative to a symbol if there is one. -/
structure Val where
  v : Word
  s : Option Text

/-- What expressions are evaluated in: the location counter, and the value of a name. -/
structure Scope where
  pass : Pass
  objmode : Bool
  dot : Val
  symVal : Text → Except Fatal Val

/-- The symbols of the sections. -/
def sectionSyms : List Text := [".text".toList, ".data".toList, ".bss".toList]

def Scope.needAbs (x : Scope) (a b : Val) : Except Fatal Unit :=
  if (a.s.isSome ∨ b.s.isSome) ∧ x.pass = .two then .error .relocatableOperand else .ok ()

/-- An operator that needs numbers. -/
def Scope.absolute (x : Scope) (f : Word → Word → Except Fatal Word) (a b : Val) :
    Except Fatal Val := do
  x.needAbs a b
  let v ← f a.v b.v
  .ok ⟨v, none⟩

/-- A quotient or remainder; the host traps where it does not fit. -/
def Scope.divide (x : Scope) (f : Word → Word → Word) (a b : Word) : Except Fatal Word :=
  if b = 0 then if x.pass = .two then .error .divisionByZero else .ok 0
  else if a = 0x80000000 ∧ b = 0xFFFFFFFF then .error .trap
  else .ok (f a b)

def Scope.add (x : Scope) (a b : Val) : Except Fatal Val :=
  if a.s.isSome ∧ b.s.isSome ∧ x.pass = .two then .error .twoRelocatable
  else .ok ⟨a.v + b.v, if b.s.isSome then b.s else a.s⟩

def Scope.sub (x : Scope) (a b : Val) : Except Fatal Val :=
  if b.s.isNone then .ok ⟨a.v - b.v, a.s⟩
  else if a.s = b.s ∧ b.s.any (· ∈ sectionSyms) ∧ x.objmode then .ok ⟨a.v - b.v, none⟩
  else if x.pass = .two then .error .badDifference
  else .ok ⟨a.v - b.v, none⟩

/-- An operator at the start of the text, and what follows it. -/
abbrev Operators := Text → Option ((Val → Val → Except Fatal Val) × Text)

def shifted (f : Word → Nat → Word) (a b : Word) : Except Fatal Word :=
  .ok (if 32 ≤ b.toNat then 0 else f a b.toNat)

def Scope.muls (x : Scope) : Operators
  | '*' :: t => some (x.absolute fun a b => .ok (a * b), t)
  | '/' :: t => some (x.absolute (x.divide BitVec.sdiv), t)
  | '%' :: t => some (x.absolute (x.divide BitVec.srem), t)
  | _ => none

def Scope.adds (x : Scope) : Operators
  | '+' :: t => some (x.add, t)
  | '-' :: t => some (x.sub, t)
  | _ => none

def Scope.shifts (x : Scope) : Operators
  | '<' :: '<' :: t => some (x.absolute (shifted fun a n => a <<< n), t)
  | '>' :: '>' :: t => some (x.absolute (shifted fun a n => a >>> n), t)
  | _ => none

def Scope.ands (x : Scope) : Operators
  | '&' :: t => some (x.absolute fun a b => .ok (a &&& b), t)
  | _ => none

def Scope.xors (x : Scope) : Operators
  | '^' :: t => some (x.absolute fun a b => .ok (a ^^^ b), t)
  | _ => none

def Scope.ors (x : Scope) : Operators
  | '|' :: t => some (x.absolute fun a b => .ok (a ||| b), t)
  | _ => none

/-- What reads an expression from the start of a text. -/
abbrev Eval := Text → Except Fatal (Val × Text)

/-- The loop of the binary operators of one level. -/
def levelLoop (next : Eval) (ops : Operators) : Nat → Val → Eval
  | 0, _, _ => .error .expressionTooDeep
  | n + 1, a, t =>
    match ops (skipws t) with
    | none => .ok (a, skipws t)
    | some (f, t') => do
      let (b, t'') ← next t'
      let c ← f a b
      levelLoop next ops n c t''

/-- `e_mul`, `e_add`, `e_shift`, `e_and`, `e_xor` and `e_or`. -/
def level (next : Eval) (ops : Operators) : Eval := fun t => do
  let (a, t') ← next t
  levelLoop next ops (t'.length + 1) a t'

/-- The digits of a number. -/
def number (base : Nat) : Word → Eval
  | x, c :: cs =>
    if isalnum c then
      if base ≤ digitValue c then .error (.badDigit c)
      else number base (x * BitVec.ofNat 32 base + BitVec.ofNat 32 (digitValue c)) cs
    else .ok (⟨x, none⟩, c :: cs)
  | x, [] => .ok (⟨x, none⟩, [])

def eNumber : Eval
  | '0' :: c :: cs =>
    if c = 'x' ∨ c = 'X' then
      if cs.head?.any isxdigit then number 16 0 cs else .error .badHexNumber
    else if (c = 'b' ∨ c = 'B') ∧ cs.head?.any (fun d => d == '0' || d == '1') then number 2 0 cs
    else number 10 0 ('0' :: c :: cs)
  | t => number 10 0 t

/-- `e_primary`, with `e_or` for what is in parentheses. -/
def Scope.ePrimary (x : Scope) (eOr : Eval) : Eval := fun t =>
  match skipws t with
  | [] => .error .expressionExpected
  | c :: cs =>
    if c = '(' then do
      let (v, t') ← eOr cs
      if (skipws t').head? = some ')' then .ok (v, (skipws t').tail) else .error .missingParen
    else if c = apostrophe then do
      let (b, t') ← escChar cs
      if t'.head? = some apostrophe then .ok (⟨b.setWidth 32, none⟩, t'.tail)
      else .error .badCharLiteral
    else if isdigit c then eNumber (c :: cs)
    else if c = '.' ∧ !cs.head?.any isId then .ok (x.dot, cs)
    else if isId0 c then
      if 250 < ((c :: cs).takeWhile isId).length then .error .nameTooLong
      else do
        let v ← x.symVal ((c :: cs).takeWhile isId)
        .ok (v, (c :: cs).dropWhile isId)
    else .error (.unexpected c)

def Scope.eUnary (x : Scope) (primary : Eval) : Nat → Eval
  | 0, _ => .error .expressionTooDeep
  | n + 1, t =>
    match skipws t with
    | '-' :: t' => do
      let (v, t'') ← x.eUnary primary n t'
      x.needAbs v ⟨0, none⟩
      .ok (⟨-v.v, none⟩, t'')
    | '~' :: t' => do
      let (v, t'') ← x.eUnary primary n t'
      x.needAbs v ⟨0, none⟩
      .ok (⟨~~~v.v, none⟩, t'')
    | '+' :: t' => x.eUnary primary n t'
    | t' => primary t'

/-- `e_or`, for `n` levels of parentheses. -/
def Scope.eOr (x : Scope) : Nat → Eval
  | 0, _ => .error .expressionTooDeep
  | n + 1, t =>
    let unary : Eval := fun t => x.eUnary (x.ePrimary (x.eOr n)) (t.length + 1) t
    level (level (level (level (level (level unary x.muls) x.adds) x.shifts) x.ands) x.xors)
      x.ors t

def Scope.eval (x : Scope) (t : Text) : Except Fatal Val := do
  let (v, t') ← x.eOr (t.length + 1) t
  if skipws t' = [] then .ok v else .error (.junkAfterExpression (skipws t'))

/-! ## Bytes -/

/-- The largest buffer that `sec_put` makes. -/
def outputLimit : Nat := 0x4000000

inductive RelocType where
  | abs16
  | abs32
  deriving DecidableEq

structure Reloc where
  off : Word
  sec : Sec
  type : RelocType
  sym : Text
  add : Word

/-- The state of a pass.  `out` has the bytes with their sections and places, in the order in which
they were put; `rest` is what the statements that are left out work on. -/
structure State (σ : Type) where
  objmode : Bool
  cursec : Sec
  loc : Sec → Word
  origin : Word
  emitted : Bool
  out : List (Sec × Word × Byte)
  relocs : List Reloc
  rest : σ

/-- The statements that are left out, and the symbols. -/
structure Rest (σ : Type) where
  symVal : Pass → State σ → Text → Except Fatal Val
  other : Pass → Text → State σ → Except Fatal (State σ)

section

variable {σ : Type}

/-- The place of the next byte in the buffer of its section. -/
def State.index (s : State σ) : Word :=
  if s.objmode then s.loc s.cursec else s.loc s.cursec - s.origin

/-- The location counter moves on. -/
def State.advance (s : State σ) (n : Nat) : State σ :=
  { s with
    loc := update s.loc s.cursec (s.loc s.cursec + BitVec.ofNat 32 n)
    emitted := true }

/-- `sec_put`: the buffer doubles from 64 KiB on, up to the limit. -/
def secPut (p : Pass) (b : Byte) (s : State σ) : Except Fatal (State σ) :=
  match p with
  | .one => .ok (s.advance 1)
  | .two =>
    if s.cursec = .bss then .error .dataInBss
    else if outputLimit ≤ s.index.toNat then .error .outputTooLarge
    else .ok { s.advance 1 with out := s.out ++ [(s.cursec, s.index, b)] }

/-- One byte after the other. -/
def putBytes (p : Pass) : List Byte → State σ → Except Fatal (State σ)
  | [], s => .ok s
  | b :: bs, s => do
    let s ← secPut p b s
    putBytes p bs s

/-- The low `n` bytes of a value. -/
def lowBytes (n : Nat) (v : Word) : List Byte :=
  (List.range n).map fun k => v.extractLsb' (8 * k) 8

def val8 (p : Pass) (v : Val) (s : State σ) : Except Fatal (State σ) :=
  if v.s.isSome ∧ p = .two then .error .relocatableByte else putBytes p (lowBytes 1 v.v) s

/-- `val16` and `val32`. -/
def valWide (type : RelocType) (n : Nat) (p : Pass) (v : Val) (s : State σ) :
    Except Fatal (State σ) :=
  match v.s, p with
  | some sym, .two =>
    putBytes p (lowBytes n 0)
      { s with relocs := s.relocs ++ [⟨s.loc s.cursec, s.cursec, type, sym, v.v⟩] }
  | _, _ => putBytes p (lowBytes n v.v) s

/-- The characters up to the closing quote, each put as it is read. -/
def stringLoop (p : Pass) : Nat → Text → State σ → Except Fatal (Text × State σ)
  | 0, _, _ => .error .unterminatedString
  | n + 1, t, s =>
    if t.head? = some quote then .ok (t.tail, s)
    else if t = [] then .error .unterminatedString
    else do
      let (b, t') ← escChar t
      let s ← secPut p b s
      stringLoop p n t' s

def parseString (p : Pass) (t : Text) (z : Bool) (s : State σ) : Except Fatal (State σ) :=
  if (skipws t).head? ≠ some quote then .error .stringExpected
  else do
    let (t', s) ← stringLoop p (skipws t).length (skipws t).tail s
    if skipws t' ≠ [] then .error .junkAfterString
    else if z then secPut p 0 s
    else .ok s

/-- What an expression of the pass sees. -/
def State.scope (R : Rest σ) (p : Pass) (s : State σ) : Scope where
  pass := p
  objmode := s.objmode
  dot := ⟨s.loc s.cursec,
    if s.objmode then
      some (match s.cursec with
        | .text => ".text".toList
        | .data => ".data".toList
        | .bss => ".bss".toList)
    else none⟩
  symVal := R.symVal p s

/-- The operands of a data directive, one after the other. -/
def operands (R : Rest σ) (p : Pass) (put : Val → State σ → Except Fatal (State σ)) :
    List Text → State σ → Except Fatal (State σ)
  | [], s => .ok s
  | t :: ts, s => do
    let v ← (s.scope R p).eval t
    let s ← put v s
    operands R p put ts s

/-- The operands of `.byte`, which may be strings. -/
def byteOperands (R : Rest σ) (p : Pass) : List Text → State σ → Except Fatal (State σ)
  | [], s => .ok s
  | t :: ts, s =>
    if t.head? = some quote then do
      let s ← parseString p t false s
      byteOperands R p ts s
    else do
      let v ← (s.scope R p).eval t
      let s ← val8 p v s
      byteOperands R p ts s

def directive (R : Rest σ) (p : Pass) (text dir t : Text) (s : State σ) :
    Except Fatal (State σ) :=
  if ieq dir ".byte".toList then do
    let ops ← splitArgs 1024 t
    byteOperands R p ops s
  else if ieq dir ".word".toList then do
    let ops ← splitArgs 1024 t
    operands R p (valWide .abs16 2 p) ops s
  else if ieq dir ".dword".toList ∨ ieq dir ".long".toList then do
    let ops ← splitArgs 1024 t
    operands R p (valWide .abs32 4 p) ops s
  else if ieq dir ".ascii".toList then parseString p t false s
  else if ieq dir ".asciiz".toList then parseString p t true s
  else R.other p text s

def statement (R : Rest σ) (p : Pass) (text : Text) (s : State σ) : Except Fatal (State σ) :=
  let t := skipws text
  let w := word 255 t
  let q := t.drop w.length
  if t.getLast? = some ':' ∧ t.head?.any isId0 then R.other p text s
  else if w = [] then .error .syntaxError
  else if !(q = [] ∨ q.head? = some ' ' ∨ q.head? = some '\t') then .error .syntaxError
  else if w.head? = some '.' then directive R p text w q s
  else R.other p text s

/-- The lines of a pass. -/
def runLines (R : Rest σ) (p : Pass) : List Text → State σ → Except Fatal (State σ)
  | [], s => .ok s
  | l :: ls, s => do
    let s ← statement R p l s
    runLines R p ls s

/-! ## Runs -/

theorem runLines_append (R : Rest σ) (p : Pass) (ls ls' : List Text) (s : State σ) :
    runLines R p (ls ++ ls') s = runLines R p ls s >>= runLines R p ls' := by
  induction ls generalizing s with
  | nil => rfl
  | cons l ls ih =>
    rw [List.cons_append, runLines, runLines]
    cases statement R p l s with
    | error e => rfl
    | ok s' => exact ih s'

theorem putBytes_append (p : Pass) (bs cs : List Byte) (s : State σ) :
    putBytes p (bs ++ cs) s = putBytes p bs s >>= putBytes p cs := by
  induction bs generalizing s with
  | nil => rfl
  | cons b bs ih =>
    rw [List.cons_append, putBytes, putBytes]
    cases secPut p b s with
    | error e => rfl
    | ok s' => exact ih s'

theorem advance_index (s : State σ) (n : Nat) :
    (s.advance n).index = s.index + BitVec.ofNat 32 n := by
  unfold State.index State.advance
  simp only [update_self]
  split
  · rfl
  · exact add_sub_right_comm _ _ _

theorem advance_advance (s : State σ) (n m : Nat) :
    (s.advance n).advance m = s.advance (n + m) := by
  unfold State.advance
  simp only [update_self, update_idem, BitVec.ofNat_add, add_assoc]

theorem putBytes_one (bs : List Byte) (hb : bs ≠ []) (s : State σ) :
    putBytes .one bs s = .ok (s.advance bs.length) := by
  induction bs generalizing s with
  | nil => exact absurd rfl hb
  | cons b bs ih =>
    cases bs with
    | nil => rfl
    | cons c cs =>
      show putBytes .one (c :: cs) (s.advance 1) = _
      rw [ih (List.cons_ne_nil _ _), advance_advance, List.length_cons (a := b), Nat.add_comm 1]

/-- Bytes at consecutive places of a section. -/
def placed (sec : Sec) : Word → List Byte → List (Sec × Word × Byte)
  | _, [] => []
  | i, b :: bs => (sec, i, b) :: placed sec (i + 1) bs

/-- What pass 2 makes of bytes for which there is room. -/
def State.stored (s : State σ) (bs : List Byte) : State σ :=
  { s.advance bs.length with out := s.out ++ placed s.cursec s.index bs }

theorem secPut_two {s : State σ} (hsec : s.cursec ≠ .bss) (hroom : s.index.toNat < outputLimit)
    (b : Byte) : secPut .two b s = .ok (s.stored [b]) := by
  rw [secPut, if_neg hsec, if_neg (by omega)]
  rfl

theorem stored_stored (s : State σ) (b : Byte) (bs : List Byte) :
    (s.stored [b]).stored bs = s.stored (b :: bs) := by
  have hindex : (s.stored [b]).index = s.index + 1 := advance_index s 1
  have hadv : (s.stored [b]).advance bs.length =
      { s.advance (bs.length + 1) with out := s.out ++ [(s.cursec, s.index, b)] } := by
    rw [Nat.add_comm, ← advance_advance]
    rfl
  show ({ (s.stored [b]).advance bs.length with
    out := s.out ++ [(s.cursec, s.index, b)] ++ placed s.cursec (s.stored [b]).index bs } :
      State σ) = _
  rw [hindex, hadv, List.append_assoc]
  rfl

theorem putBytes_two (bs : List Byte) (hb : bs ≠ []) {s : State σ} (hsec : s.cursec ≠ .bss)
    (hroom : s.index.toNat + bs.length ≤ outputLimit) : putBytes .two bs s = .ok (s.stored bs) := by
  induction bs generalizing s with
  | nil => exact absurd rfl hb
  | cons b bs ih =>
    rw [List.length_cons] at hroom
    have hput := secPut_two hsec (by omega) b
    have hindex : (s.stored [b]).index.toNat = s.index.toNat + 1 := by
      have hnext : (s.stored [b]).index = s.index + 1 := advance_index s 1
      rw [hnext]
      unfold outputLimit at hroom
      bv_omega
    rw [putBytes, hput]
    show putBytes .two bs (s.stored [b]) = _
    cases bs with
    | nil => rfl
    | cons c cs =>
      rw [ih (List.cons_ne_nil _ _) (s := s.stored [b]) hsec (by omega), stored_stored]

end

end Tortoise.AsText
