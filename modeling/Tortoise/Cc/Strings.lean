import Tortoise.Tools.AsText

/-!
# String literals through the assembler

`emit_string` of `src/cc/gen.c` writes the bytes of a literal as `.ascii` lines, with escapes of its
own; the assembler reads them back with its scanners.

* `emitString`: the lines, cut where the buffer has 160 characters.
* `escChar_emitByte`: `esc_char` reads each byte back, whatever follows it.
* `emitString_lines`: the lines go through the reader as they are.
* `runLines_emitString`: the statements put the bytes and a zero byte.
* `emitString_assembles`: the round trip, as long as the section has room.
* `emitString_full`: a literal that fills a section to the limit is refused.
-/

namespace Tortoise.Cc

open AsText BitVec List

/-! ## The lines -/

/-- A digit of `%02X`. -/
def hexDigit (n : Nat) : Char := Char.ofNat (if n < 10 then 48 + n else 55 + n)

/-- How a byte is written. -/
def emitByte (c : Byte) : Text :=
  if c = 34 ∨ c = 92 then [backslash, Char.ofNat c.toNat]
  else if 32 ≤ c.toNat ∧ c.toNat < 127 then [Char.ofNat c.toNat]
  else [backslash, 'x', hexDigit (c.toNat / 16), hexDigit (c.toNat % 16)]

/-- The inner loop, with `k` characters in the buffer: what is added to it, and the bytes left. -/
def fillBuf : Nat → List Byte → Text × List Byte
  | _, [] => ([], [])
  | k, c :: cs =>
    if k < 160 then
      (emitByte c ++ (fillBuf (k + (emitByte c).length) cs).1,
        (fillBuf (k + (emitByte c).length) cs).2)
    else ([], c :: cs)

def asciiLine (buf : Text) : Text := ".ascii ".toList ++ quote :: buf ++ [quote]

def zeroLine : Text := ".byte 0".toList

/-- The outer loop. -/
def emitChunks : Nat → List Byte → List Text
  | _, [] => []
  | 0, _ => []
  | n + 1, data => asciiLine (fillBuf 0 data).1 :: emitChunks n (fillBuf 0 data).2

def emitString (data : List Byte) : List Text := emitChunks data.length data ++ [zeroLine]

/-- The lines in the output file, each with its newline. -/
def written (ls : List Text) : Text := ls.flatMap fun l => l ++ ['\n']

/-- The bytes of a chunk as they are written. -/
def emitBytes (bs : List Byte) : Text := bs.flatMap emitByte

theorem emitBytes_cons (c : Byte) (bs : List Byte) :
    emitBytes (c :: bs) = emitByte c ++ emitBytes bs := rfl

theorem emitByte_cases (c : Byte) :
    (∃ d, emitByte c = [backslash, d] ∧ (d = quote ∨ d = backslash) ∧ charByte d = c) ∨
    (∃ d, emitByte c = [d] ∧ d ≠ quote ∧ d ≠ backslash ∧ 32 ≤ d.toNat ∧ d.toNat < 127 ∧
      charByte d = c) ∨
    emitByte c = [backslash, 'x', hexDigit (c.toNat / 16), hexDigit (c.toNat % 16)] := by
  have hchar : ∀ n, n < 127 → (Char.ofNat n).toNat = n := by decide
  unfold emitByte
  split
  next h =>
    refine .inl ⟨_, rfl, ?_⟩
    rcases h with rfl | rfl <;> decide
  next h =>
    split
    next hc =>
      have hd := hchar c.toNat hc.2
      refine .inr (.inl ⟨_, rfl, ?_, ?_, by omega, by omega, ?_⟩)
      · intro hq
        have : c.toNat = 34 := by rw [← hd, hq]; rfl
        exact h (.inl (eq_of_toNat_eq this))
      · intro hb
        have : c.toNat = 92 := by rw [← hd, hb]; rfl
        exact h (.inr (eq_of_toNat_eq this))
      · rw [charByte, hd, ofNat_toNat, setWidth_eq]
    next => exact .inr (.inr rfl)

theorem hexDigit_spec : ∀ n, n < 16 → isxdigit (hexDigit n) = true ∧ digitValue (hexDigit n) = n ∧
    (32 ≤ (hexDigit n).toNat ∧ (hexDigit n).toNat < 127) ∧
      hexDigit n ≠ quote ∧ hexDigit n ≠ backslash := by
  decide

theorem emitByte_length (c : Byte) : 1 ≤ (emitByte c).length ∧ (emitByte c).length ≤ 4 := by
  rcases emitByte_cases c with ⟨d, h, -⟩ | ⟨d, h, -⟩ | h <;> simp [h]

theorem emitByte_printable (c : Byte) : ∀ d ∈ emitByte c, 32 ≤ d.toNat ∧ d.toNat < 127 := by
  have hc := c.isLt
  rcases emitByte_cases c with ⟨d, h, hd, -⟩ | ⟨d, h, -, -, hl, hu, -⟩ | h
  · rw [h]
    simp only [mem_cons, not_mem_nil, or_false, forall_eq_or_imp, forall_eq]
    rcases hd with rfl | rfl <;> decide
  · rw [h]
    simpa using ⟨hl, hu⟩
  · rw [h]
    simp only [mem_cons, not_mem_nil, or_false, forall_eq_or_imp, forall_eq]
    obtain ⟨-, -, hx, -⟩ := hexDigit_spec (c.toNat / 16) (by omega)
    obtain ⟨-, -, hy, -⟩ := hexDigit_spec (c.toNat % 16) (by omega)
    exact ⟨by decide, by decide, hx, hy⟩

theorem emitBytes_printable (bs : List Byte) :
    ∀ d ∈ emitBytes bs, 32 ≤ d.toNat ∧ d.toNat < 127 := by
  intro d hd
  obtain ⟨c, -, hc⟩ := mem_flatMap.1 hd
  exact emitByte_printable c d hc

/-- **A byte is read back**, whatever follows it. -/
theorem escChar_emitByte (c : Byte) (t : Text) : escChar (emitByte c ++ t) = .ok (c, t) := by
  rcases emitByte_cases c with ⟨d, h, hd, hv⟩ | ⟨d, h, -, hb, -, -, hv⟩ | h
  · rw [h, ← hv]
    rcases hd with rfl | rfl <;> rfl
  · rw [h, ← hv]
    exact if_neg hb
  · have hc := c.isLt
    obtain ⟨hx, hxv, -⟩ := hexDigit_spec (c.toNat / 16) (by omega)
    obtain ⟨hy, hyv, -⟩ := hexDigit_spec (c.toNat % 16) (by omega)
    have hdigits : hexDigits 2 0 (hexDigit (c.toNat / 16) :: hexDigit (c.toNat % 16) :: t) =
        (c.toNat, t) := by
      rw [hexDigits, if_pos hx, hexDigits, if_pos hy, hxv, hyv, hexDigits]
      · congr 1
        omega
      · exact fun k c cs hk => absurd hk (Nat.succ_ne_zero k).symm
    rw [h]
    show escape ('x' :: hexDigit (c.toNat / 16) :: hexDigit (c.toNat % 16) :: t) = _
    have : escape ('x' :: hexDigit (c.toNat / 16) :: hexDigit (c.toNat % 16) :: t) =
        .ok (BitVec.ofNat 8 (hexDigits 2 0 (hexDigit (c.toNat / 16) ::
          hexDigit (c.toNat % 16) :: t)).1, (hexDigits 2 0 (hexDigit (c.toNat / 16) ::
          hexDigit (c.toNat % 16) :: t)).2) := rfl
    rw [this, hdigits, ofNat_toNat, setWidth_eq]

theorem emitByte_head (c : Byte) (t : Text) : (emitByte c ++ t).head? ≠ some quote := by
  rcases emitByte_cases c with ⟨d, h, -⟩ | ⟨d, h, hq, -⟩ | h
  · rw [h]
    show some backslash ≠ some quote
    decide
  · rw [h]
    exact fun hd => hq (Option.some.inj hd)
  · rw [h]
    show some backslash ≠ some quote
    decide

/-! ## The reader -/

theorem stripComment_plain {c : Char} (hq : c ≠ quote) (ha : c ≠ apostrophe) (hs : c ≠ ';')
    (t : Text) : stripComment none (c :: t) = c :: stripComment none t := by
  rw [stripComment, if_neg (by simp [hq, ha]), if_neg hs]

theorem stripComment_quoted {c : Char} (hq : c ≠ quote) (hb : c ≠ backslash) (t : Text) :
    stripComment (some quote) (c :: t) = c :: stripComment (some quote) t := by
  rw [stripComment.eq_def]
  simp only [if_neg hb, if_neg hq]

theorem stripComment_escaped (d : Char) (t : Text) :
    stripComment (some quote) (backslash :: d :: t) =
      backslash :: d :: stripComment (some quote) t := by
  rw [stripComment.eq_def]
  exact if_pos rfl

/-- No byte ends the quoted text for `strip_comment`. -/
theorem stripComment_emitByte (c : Byte) (t : Text) :
    stripComment (some quote) (emitByte c ++ t) =
      emitByte c ++ stripComment (some quote) t := by
  rcases emitByte_cases c with ⟨d, h, -⟩ | ⟨d, h, hq, hb, -⟩ | h
  · rw [h]
    exact stripComment_escaped d t
  · rw [h]
    exact stripComment_quoted hq hb t
  · have hc := c.isLt
    obtain ⟨-, -, -, hxq, hxb⟩ := hexDigit_spec (c.toNat / 16) (by omega)
    obtain ⟨-, -, -, hyq, hyb⟩ := hexDigit_spec (c.toNat % 16) (by omega)
    rw [h]
    show stripComment (some quote) (backslash :: 'x' :: _ :: _ :: t) = _
    rw [stripComment_escaped, stripComment_quoted hxq hxb, stripComment_quoted hyq hyb]
    rfl

theorem stripComment_emitBytes (bs : List Byte) (t : Text) :
    stripComment (some quote) (emitBytes bs ++ t) =
      emitBytes bs ++ stripComment (some quote) t := by
  induction bs with
  | nil => rfl
  | cons c bs ih => rw [emitBytes_cons, List.append_assoc, stripComment_emitByte, ih,
      List.append_assoc]

theorem asciiLine_cons (buf : Text) : asciiLine buf =
    '.' :: 'a' :: 's' :: 'c' :: 'i' :: 'i' :: ' ' :: quote :: (buf ++ [quote]) := rfl

theorem stripComment_asciiLine (bs : List Byte) :
    stripComment none (asciiLine (emitBytes bs) ++ ['\n']) =
      asciiLine (emitBytes bs) ++ ['\n'] := by
  have hend : stripComment (some quote) [quote, '\n'] = [quote, '\n'] := by decide
  have hopen : ∀ t, stripComment none (quote :: t) = quote :: stripComment (some quote) t := by
    intro t
    rw [stripComment]
    exact if_pos (.inl rfl)
  rw [asciiLine_cons]
  simp only [List.cons_append, List.append_assoc, nil_append]
  iterate 7 rw [stripComment_plain (by decide) (by decide) (by decide)]
  rw [hopen, stripComment_emitBytes, hend]

theorem rtrim_newline {l : Text} {c : Char} (hc : isspace c = false) :
    rtrim (l ++ [c] ++ ['\n']) = l ++ [c] := by
  unfold rtrim
  rw [List.reverse_append, List.reverse_append]
  show ((('\n' :: c :: l.reverse)).dropWhile isspace).reverse = _
  rw [dropWhile_cons_of_pos (by decide), dropWhile_cons_of_neg (by simp [hc])]
  simp

/-- No macro is being defined, and none has the name of a directive that `emit_string` writes. -/
structure Quiet (r : Reader) : Prop where
  closed : r.defmac = false
  ascii : ∀ m ∈ r.macros, m.name ≠ ".ascii".toList
  byte : ∀ m ∈ r.macros, m.name ≠ ".byte".toList

/-- A line that the reader takes as it is. -/
def Passes (h : Host) (l : Text) : Prop :=
  ∀ n depth cur r, Quiet r →
    processLine h (n + 1) depth cur (l ++ ['\n']) r = .ok (r.addLine l)

section Reader

variable {h : Host} {r : Reader}

/-- A line with a directive that is not the reader's own. -/
theorem passes_directive {l w : Text} {c : Char} (hlen : l.length + 1 < bufSize)
    (hstrip : stripComment none (l ++ ['\n']) = l ++ ['\n']) (hlast : ∃ l', l = l' ++ [c])
    (hc : isspace c = false) (hskip : skipws l = l) (hlabel : labelOf l = none)
    (hw : word 255 l = w) (hm : ∀ r, Quiet r → ∀ m ∈ r.macros, m.name ≠ w)
    (hopen : ieq w ".macro".toList = false) (hendm : ieq w ".endm".toList = false)
    (hinclude : ieq w ".include".toList = false) : Passes h l := by
  intro n depth cur r hr
  obtain ⟨l', rfl⟩ := hlast
  have hfind : r.findMacro w = none :=
    List.find?_eq_none.2 fun m hmem => by simpa using hm r hr m hmem
  have hlen' : ¬ bufSize ≤ (l' ++ [c] ++ ['\n']).length := by
    rw [length_append, length_singleton]
    omega
  rw [processLine, if_neg hlen', hstrip, rtrim_newline hc]
  simp only [hskip, hr.closed, Bool.false_eq_true, if_false, hlabel]
  rw [if_neg (by simp)]
  simp only [processWord, hw, hopen, hendm, hinclude, Bool.false_eq_true, if_false, hfind]

theorem passes_asciiLine {bs : List Byte} (hlen : (emitBytes bs).length ≤ 163) :
    Passes h (asciiLine (emitBytes bs)) := by
  refine passes_directive (w := ".ascii".toList) (c := quote) ?_ (stripComment_asciiLine bs)
    ⟨".ascii ".toList ++ quote :: emitBytes bs, rfl⟩ (by decide) rfl rfl rfl
    (fun _ hr => hr.ascii) (by decide) (by decide) (by decide)
  rw [asciiLine_cons]
  simp only [length_cons, length_append, length_nil, bufSize]
  omega

theorem passes_zeroLine : Passes h zeroLine :=
  passes_directive (w := ".byte".toList) (c := '0') (by decide) (by decide)
    ⟨".byte ".toList, rfl⟩ (by decide) rfl rfl rfl (fun _ hr => hr.byte) (by decide) (by decide)
    (by decide)

theorem fgets_line {l : Text} (hn : '\n' ∉ l) (hlen : l.length < bufSize - 1) (t : Text) :
    fgets (l ++ '\n' :: t) = (l ++ ['\n'], t) := by
  have htake : ((l ++ '\n' :: t).take (bufSize - 1)).takeWhile (fun c => c != '\n') = l := by
    obtain ⟨k, hk⟩ : ∃ k, bufSize - 1 - l.length = k + 1 := ⟨bufSize - 1 - l.length - 1, by omega⟩
    have hall : ∀ c ∈ l, (c != '\n') = true := by
      intro c hc
      have hne : c ≠ '\n' := by
        rintro rfl
        exact hn hc
      simpa using hne
    rw [take_append, take_of_length_le (by omega), hk, take_succ_cons,
      takeWhile_append_of_pos hall]
    simp
  unfold fgets
  simp only [htake]
  rw [if_pos ⟨hlen, by simp⟩]
  simp [List.drop_append]

theorem fgets_shorter {t : Text} (ht : t ≠ []) : (fgets t).2.length < t.length := by
  have hpos : 0 < t.length := length_pos_of_ne_nil ht
  unfold fgets
  simp only
  split
  · simp only [length_drop]
    omega
  next hn =>
    -- the line goes up to the end of the buffer or of the text
    have hl : ((t.take (bufSize - 1)).takeWhile fun c => c != '\n').length = bufSize - 1 ∨
        t.length ≤ ((t.take (bufSize - 1)).takeWhile fun c => c != '\n').length := by
      have hle := (takeWhile_sublist (l := t.take (bufSize - 1)) fun c => c != '\n').length_le
      rw [length_take] at hle
      omega
    have : 0 < bufSize - 1 := by decide
    simp only [length_drop]
    omega

/-- As many rounds as there are characters are enough. -/
theorem readLines_fuel (process : Text → Reader → Except AsText.Fatal Reader) {n : Nat} {t : Text}
    (hn : t.length ≤ n) (r : Reader) :
    readLines process n t r = readLines process t.length t r := by
  induction n using Nat.strong_induction_on generalizing t r with
  | _ n ih =>
    cases n with
    | zero => rw [Nat.le_zero.1 hn]
    | succ n =>
      by_cases ht : t = []
      · subst ht
        rfl
      obtain ⟨m, hm⟩ : ∃ m, t.length = m + 1 :=
        ⟨t.length - 1, by have := length_pos_of_ne_nil ht; omega⟩
      have hshort := fgets_shorter ht
      rw [hm, readLines, readLines]
      simp only [if_neg ht]
      split
      · rfl
      · congr 1
        funext r'
        rw [ih n (by omega) (by omega), ih m (by omega) (by omega)]

/-- Lines that the reader takes as they are, in front of any text. -/
theorem readLines_written {cur : Option Text} {depth n : Nat} (ls : List Text)
    (hp : ∀ l ∈ ls, Passes h l) (hnl : ∀ l ∈ ls, '\n' ∉ l ∧ l.length < bufSize - 1)
    (hr : Quiet r) (post : Text) :
    readLines (processLine h (n + 1) depth cur) (written ls ++ post).length (written ls ++ post) r =
      readLines (processLine h (n + 1) depth cur) post.length post
        { r with lines := r.lines ++ ls } := by
  induction ls generalizing r with
  | nil =>
    rw [append_nil]
    rfl
  | cons l ls ih =>
    obtain ⟨hn, hlen⟩ := hnl l mem_cons_self
    have htext : written (l :: ls) ++ post = l ++ '\n' :: (written ls ++ post) := by
      simp [written]
    have hrest := ih (fun l' h' => hp l' (mem_cons_of_mem _ h'))
      (fun l' h' => hnl l' (mem_cons_of_mem _ h')) (r := r.addLine l)
      ⟨hr.closed, hr.ascii, hr.byte⟩
    rw [htext, length_append, length_cons, ← Nat.add_assoc, readLines,
      if_neg (by simp), fgets_line hn hlen, if_neg (by simp), hp l mem_cons_self _ _ _ _ hr]
    show readLines _ (l.length + (written ls ++ post).length) (written ls ++ post) _ = _
    rw [readLines_fuel _ (by omega), hrest, Reader.addLine, List.append_assoc]
    rfl

end Reader

/-! ## The chunks -/

theorem fillBuf_spec (k : Nat) (data : List Byte) : ∃ bs, data = bs ++ (fillBuf k data).2 ∧
    (fillBuf k data).1 = emitBytes bs ∧ (k < 164 → k + (emitBytes bs).length < 164) ∧
    (k < 160 → data ≠ [] → bs ≠ []) := by
  induction data generalizing k with
  | nil => exact ⟨[], rfl, rfl, fun h => h, fun _ h => absurd rfl h⟩
  | cons c data ih =>
    rw [fillBuf]
    split
    next hk =>
      obtain ⟨bs, hdata, hbuf, hlen, -⟩ := ih (k + (emitByte c).length)
      have hc := emitByte_length c
      refine ⟨c :: bs, ?_, ?_, ?_, fun _ _ => cons_ne_nil _ _⟩
      · rw [List.cons_append, ← hdata]
      · rw [emitBytes_cons, hbuf]
      · intro _
        rw [emitBytes_cons, length_append]
        have := hlen (by omega)
        omega
    next hk => exact ⟨[], rfl, rfl, fun h => h, fun h => absurd h hk⟩

/-- The lines are the chunks of a partition of the bytes. -/
theorem emitChunks_spec {n : Nat} {data : List Byte} (hn : data.length ≤ n) :
    ∃ chunks : List (List Byte),
      emitChunks n data = chunks.map (fun bs => asciiLine (emitBytes bs)) ∧ chunks.flatten = data ∧
        ∀ bs ∈ chunks, (emitBytes bs).length ≤ 163 := by
  induction n generalizing data with
  | zero =>
    obtain rfl := length_eq_zero_iff.1 (Nat.le_zero.1 hn)
    exact ⟨[], rfl, rfl, nofun⟩
  | succ n ih =>
    cases data with
    | nil => exact ⟨[], rfl, rfl, nofun⟩
    | cons c data =>
      obtain ⟨bs, hdata, hbuf, hlen, hne⟩ := fillBuf_spec 0 (c :: data)
      have hpos := length_pos_of_ne_nil (hne (by decide) (cons_ne_nil _ _))
      have hsum := congrArg List.length hdata
      rw [length_append] at hsum
      have hle : (fillBuf 0 (c :: data)).2.length ≤ n := by omega
      obtain ⟨chunks, hmap, hflat, hall⟩ := ih hle
      refine ⟨bs :: chunks, ?_, ?_, ?_⟩
      · rw [map_cons, ← hmap, ← hbuf]
        rfl
      · rw [flatten_cons, hflat, ← hdata]
      · have := hlen (by decide)
        exact forall_mem_cons.2 ⟨by omega, hall⟩

/-! ## The statements -/

section Statements

variable {σ : Type} {R : Rest σ} {p : Pass}

/-- The quoted bytes are put one after the other. -/
theorem stringLoop_emitBytes (bs : List Byte) (t : Text) (n : Nat)
    (hn : (emitBytes bs).length < n) (s : State σ) :
    stringLoop p n (emitBytes bs ++ quote :: t) s =
      putBytes p bs s >>= fun s' => .ok (t, s') := by
  induction bs generalizing n s with
  | nil =>
    obtain ⟨m, rfl⟩ : ∃ m, n = m + 1 := ⟨n - 1, by omega⟩
    rfl
  | cons c bs ih =>
    have hc := emitByte_length c
    obtain ⟨m, rfl⟩ : ∃ m, n = m + 1 := ⟨n - 1, by omega⟩
    rw [emitBytes_cons, length_append] at hn
    have hne : emitByte c ++ (emitBytes bs ++ quote :: t) ≠ [] := by
      intro h
      have := (append_eq_nil_iff.1 h).1
      rw [this] at hc
      exact absurd hc.1 (by decide)
    rw [emitBytes_cons, List.append_assoc, stringLoop, if_neg (emitByte_head c _), if_neg hne,
      escChar_emitByte, putBytes]
    show (secPut p c s >>= fun s => stringLoop p m _ s) = _
    cases secPut p c s with
    | error e => rfl
    | ok s' => exact ih m (by omega) s'

theorem statement_asciiLine (bs : List Byte) (s : State σ) :
    statement R p (asciiLine (emitBytes bs)) s = putBytes p bs s := by
  have hskip : skipws (asciiLine (emitBytes bs)) = asciiLine (emitBytes bs) := rfl
  have hword : word 255 (asciiLine (emitBytes bs)) = ".ascii".toList := rfl
  have hlast : (asciiLine (emitBytes bs)).getLast? = some quote := by
    have hsplit : asciiLine (emitBytes bs) =
        (".ascii ".toList ++ quote :: emitBytes bs) ++ [quote] := rfl
    rw [hsplit]
    generalize ".ascii ".toList ++ quote :: emitBytes bs = l
    exact List.getLast?_concat
  have hcolon : ¬ (some quote = some ':' ∧ (asciiLine (emitBytes bs)).head?.any isId0 = true) :=
    fun h => absurd h.1 (by decide)
  have hdrop : (asciiLine (emitBytes bs)).drop (".ascii".toList).length =
      ' ' :: quote :: (emitBytes bs ++ [quote]) := rfl
  have hloop := stringLoop_emitBytes (p := p) bs [] (emitBytes bs ++ [quote]).length.succ
    (by rw [length_append]; omega) s
  unfold statement
  simp only [hskip, hword, hlast, if_neg hcolon, hdrop]
  show parseString p (' ' :: quote :: (emitBytes bs ++ [quote])) false s = _
  show (stringLoop p (emitBytes bs ++ [quote]).length.succ (emitBytes bs ++ [quote]) s >>= _) = _
  rw [hloop]
  cases putBytes p bs s with
  | error e => rfl
  | ok s' => rfl

theorem statement_zeroLine (s : State σ) : statement R p zeroLine s = putBytes p [0] s := by
  have heval : (s.scope R p).eval ['0'] = .ok ⟨0, none⟩ := rfl
  have hline : statement R p zeroLine s = byteOperands R p [['0']] s := rfl
  rw [hline, byteOperands, if_neg (by decide), heval]
  show (val8 p ⟨0, none⟩ s >>= fun s => byteOperands R p [] s) = _
  rw [val8, if_neg (by simp)]
  show (putBytes p [0] s >>= fun s => .ok s) = _
  cases putBytes p [0] s with
  | error e => rfl
  | ok s' => rfl

theorem runLines_chunks (chunks : List (List Byte)) (s : State σ) :
    runLines R p (chunks.map fun bs => asciiLine (emitBytes bs)) s =
      putBytes p chunks.flatten s := by
  induction chunks generalizing s with
  | nil => rfl
  | cons bs chunks ih =>
    rw [map_cons, runLines, statement_asciiLine, flatten_cons, putBytes_append]
    cases putBytes p bs s with
    | error e => rfl
    | ok s' => exact ih s'

/-- **The lines put the bytes and a zero byte**, in either pass. -/
theorem runLines_emitString (data : List Byte) (s : State σ) :
    runLines R p (emitString data) s = putBytes p (data ++ [0]) s := by
  obtain ⟨chunks, hmap, hflat, -⟩ := emitChunks_spec (le_refl data.length)
  rw [emitString, hmap, runLines_append, runLines_chunks, hflat, putBytes_append]
  congr 1
  funext s'
  rw [runLines, statement_zeroLine]
  cases putBytes p [0] s' with
  | error e => rfl
  | ok s'' => rfl

end Statements

/-! ## The round trip -/

theorem emitString_lines (data : List Byte) : ∀ l ∈ emitString data,
    (∀ h, Passes h l) ∧ '\n' ∉ l ∧ l.length < bufSize - 1 := by
  obtain ⟨chunks, hmap, -, hlen⟩ := emitChunks_spec (le_refl data.length)
  intro l hl
  rw [emitString, hmap] at hl
  rcases mem_append.1 hl with hl | hl
  · obtain ⟨bs, hbs, rfl⟩ := mem_map.1 hl
    have hle := hlen bs hbs
    refine ⟨fun h => passes_asciiLine hle, ?_, ?_⟩
    · have hbody : '\n' ∉ emitBytes bs := fun hn =>
        absurd (emitBytes_printable bs _ hn).1 (by decide)
      rw [asciiLine_cons]
      simpa [quote] using hbody
    · rw [asciiLine_cons]
      simp only [length_cons, length_append, length_nil, bufSize]
      omega
  · obtain rfl := mem_singleton.1 hl
    exact ⟨fun h => passes_zeroLine, by decide, by decide⟩

/-- **String literals survive the toolchain.**  For every byte string, every reader in which no
macro hides the directives, every text that follows and every state of the passes in a section with
room: the reader takes the lines of `emit_string` as they are; pass 1 counts the bytes and one more;
pass 2 puts exactly the bytes, in their order, and a zero byte. -/
theorem emitString_assembles (data : List Byte) (h : Host) (n depth : Nat) (cur : Option Text)
    {r : Reader} (hr : Quiet r) (post : Text) {σ : Type} (R : Rest σ) {s : State σ}
    (hsec : s.cursec ≠ .bss) (hroom : s.index.toNat + data.length + 1 ≤ outputLimit) :
    readLines (processLine h (n + 1) depth cur) (written (emitString data) ++ post).length
        (written (emitString data) ++ post) r =
      readLines (processLine h (n + 1) depth cur) post.length post
        { r with lines := r.lines ++ emitString data } ∧
    runLines R .one (emitString data) s = .ok (s.advance (data.length + 1)) ∧
    runLines R .two (emitString data) s = .ok { s.advance (data.length + 1) with
      out := s.out ++ placed s.cursec s.index (data ++ [0]) } := by
  have hne : data ++ [0] ≠ [] := append_ne_nil_of_right_ne_nil _ (cons_ne_nil _ _)
  have hlen : (data ++ [0]).length = data.length + 1 := length_append
  refine ⟨?_, ?_, ?_⟩
  · exact readLines_written _ (fun l hl => (emitString_lines data l hl).1 h)
      (fun l hl => (emitString_lines data l hl).2) hr post
  · rw [runLines_emitString, putBytes_one _ hne, hlen]
  · rw [runLines_emitString, putBytes_two _ hne hsec (by omega), State.stored, hlen]

/-- The section of the literals when nothing has been put. -/
def dataStart : State Unit where
  objmode := true
  cursec := .data
  loc := fun _ => 0
  origin := 0
  emitted := false
  out := []
  relocs := []
  rest := ()

/-- There are no other statements and no symbols. -/
def noRest : Rest Unit where
  symVal := fun _ _ _ => .error .rest
  other := fun _ _ _ => .error .rest

/-- A byte that looks like a digit after an escaped one, a quote, a semicolon and a backslash. -/
theorem emitString_assembles_escapes :
    readLines (processLine ⟨fun _ _ => none⟩ levels 0 none)
        (written (emitString [0, 65, 34, 59, 92, 10]) ++ []).length
        (written (emitString [0, 65, 34, 59, 92, 10]) ++ []) Reader.start =
      readLines (processLine ⟨fun _ _ => none⟩ levels 0 none) 0 []
        { Reader.start with lines := emitString [0, 65, 34, 59, 92, 10] } ∧
    runLines noRest .one (emitString [0, 65, 34, 59, 92, 10]) dataStart =
      .ok (dataStart.advance 7) ∧
    runLines noRest .two (emitString [0, 65, 34, 59, 92, 10]) dataStart =
      .ok { dataStart.advance 7 with out := placed .data 0 [0, 65, 34, 59, 92, 10, 0] } :=
  emitString_assembles [0, 65, 34, 59, 92, 10] ⟨fun _ _ => none⟩ 33 0 none
    ⟨rfl, fun _ h => absurd h not_mem_nil, fun _ h => absurd h not_mem_nil⟩ [] noRest
    (by decide) (by decide)

theorem runLines_full {σ : Type} (R : Rest σ) {data : List Byte} (hne : data ≠ []) {s : State σ}
    (hsec : s.cursec ≠ .bss) (hfull : s.index.toNat + data.length = outputLimit) :
    runLines R .two (emitString data) s = .error .outputTooLarge := by
  have hindex : (s.stored data).index.toNat = outputLimit := by
    have hnext : (s.stored data).index = s.index + BitVec.ofNat 32 data.length :=
      advance_index s data.length
    rw [hnext, toNat_add, toNat_ofNat]
    unfold outputLimit at hfull ⊢
    omega
  have hsec' : (s.stored data).cursec ≠ .bss := hsec
  have hlast : secPut .two 0 (s.stored data) = .error .outputTooLarge := by
    rw [secPut, if_neg hsec', if_pos hindex.ge]
  rw [runLines_emitString, putBytes_append, putBytes_two _ hne hsec hfull.le]
  show (secPut .two 0 (s.stored data) >>= fun s => putBytes .two [] s) = _
  rw [hlast]
  rfl

/-- **A literal of 64 MiB**, alone in its section, is refused. -/
theorem emitString_full :
    runLines noRest .two (emitString (List.replicate outputLimit 65)) dataStart =
      .error .outputTooLarge := by
  refine runLines_full noRest ?_ (by decide) ?_
  · exact ne_nil_of_length_pos (by rw [length_replicate]; decide)
  · rw [length_replicate]
    rfl

end Tortoise.Cc
