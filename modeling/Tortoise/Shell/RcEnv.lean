import Mathlib.Data.List.AList
import Tortoise.Shell.RcVars

/-!
# The variables of rc on the way to another rc

`setvar` and `envwrite`, `build_env`, `import_env` and the start of `main` of `src/os/bin/rc.c`,
with the files of an environment group (`src/os/kernel/env.c`) that they go through.  The characters
of a string stand for its bytes.  Processes share a group, so that others may write to its files.

* `readWords_encode`: which lists come back from a file;
* `run_holds`: the file of a variable holds its list, or is the one that it was read from;
* `variables_pass`: which variables a new rc has as the rc that starts it;
* `long_word_cut`, `prompt_joined`: a long list is cut, and a list without a file becomes one word.
-/

namespace Tortoise.Rc

/-! ## The environment device -/

/-- An environment group: at most `NEVAR` files of different names. -/
structure Group where
  files : AList fun _ : String => List Char
  few : files.keys.length ≤ 64

/-- What `open` for writing does, beside a group that is full: it gives a descriptor, or fails with
the file as it was, or fails when the file is already empty. -/
inductive Open
  | given | refused | emptied
  deriving DecidableEq

/-- What a call of `envwrite` meets: the answer of `open`, and the sizes there is memory for. -/
structure Device where
  opened : Open
  mem : Nat → Bool

namespace Group

/-- There is a file of this name, or a place for one. -/
def hasPlace (g : Group) (x : String) : Prop := x ∈ g.files ∨ g.files.keys.length < 64

instance (g : Group) (x : String) : Decidable (g.hasPlace x) := inferInstanceAs (Decidable (_ ∨ _))

/-- `e_create` where there is no such file, `e_truncate` and the bytes that are then written. -/
def put (g : Group) (x : String) (b : List Char) : Group :=
  if h : g.hasPlace x then
    { files := g.files.insert x b
      few := by
        have hfew := g.few
        rw [AList.keys_insert, List.length_cons]
        rcases h with h | h
        · rw [List.length_erase_of_mem (AList.mem_keys.1 h)]
          have := List.length_pos_of_mem (AList.mem_keys.1 h)
          omega
        · have := List.length_erase_le (a := x) (l := g.files.keys)
          omega }
  else g

/-- `e_unlink`. -/
def unlink (g : Group) (x : String) : Group :=
  { files := g.files.erase x
    few := by
      rw [AList.keys_erase]
      exact le_trans List.length_erase_le g.few }

end Group

/-- `write_loop` over `e_write` at the end of the file, in pieces of `CHUNK` bytes: `resize` takes
`MAXEVAL` bytes, if there is memory. -/
def writeLoop (mem : Nat → Bool) : Nat → List Char → List Char → List Char
  | 0, val, _ => val
  | fuel + 1, val, rest =>
    let chunk := rest.take 4096
    if rest = [] then val
    else if (val ++ chunk).length ≤ 16384 ∧ mem (val ++ chunk).length then
      writeLoop mem fuel (val ++ chunk) (rest.drop 4096)
    else val

/-- `write(fd, w, strlen(w) + 1)`, which first needs a buffer. -/
def writeWord (mem : Nat → Bool) (val : List Char) (w : String) : List Char :=
  let bytes := w.toList ++ ['\x00']
  if mem 4096 then writeLoop mem bytes.length val bytes else val

/-- `envwrite`.  The paths of `.` and `..` are the directory itself. -/
def Group.envwrite (g : Group) (d : Device) (x : String) (v : List String) : Group :=
  if ¬envname x ∨ x = "." ∨ x = ".." then g
  else if v = [] then g.unlink x
  else
    match d.opened with
    | .refused => g
    | .emptied => g.put x []
    | .given => g.put x (v.foldl (writeWord d.mem) [])

/-! ## rc -/

abbrev Vars := AList fun _ : String => List String

/-- The variables of an rc, and its environment group. -/
structure Proc where
  vars : Vars
  group : Group

/-- The loop of `import_env` that takes a buffer apart at its zero bytes. -/
def split : List Char → List (List Char)
  | [] => []
  | c :: l =>
    if c = '\x00' then [] :: split l
    else
      match split l with
      | [] => [[c]]
      | w :: ws => (c :: w) :: ws

/-- The words of a file: `read` is for 4095 bytes. -/
def readWords (file : List Char) : List String := (split (file.take 4095)).map String.ofList

/-- A file of `/env`; `reads` says which ones can be opened and read. -/
def importFile (reads : String → Bool) (vars : Vars) (e : Sigma fun _ : String => List Char) :
    Vars :=
  if e.1.toList.head? = some '.' ∨ reads e.1 = false then vars
  else vars.insert e.1 (readWords e.2)

/-- A string `name=value` of the environment. -/
def importString (vars : Vars) (s : List Char) : Vars :=
  let name := s.takeWhile (· ≠ '=')
  if '=' ∉ s ∨ 64 ≤ name.length ∨ String.ofList name ∈ vars then vars
  else vars.insert (String.ofList name) [String.ofList (s.drop (name.length + 1))]

/-- `import_env`: the files of `/env`, then the strings of the environment. -/
def imported (reads : String → Bool) (g : Group) (env : List (List Char)) : Proc :=
  ⟨env.foldl importString (g.files.entries.foldl (importFile reads) ∅), g⟩

/-- The words of a list in one, with blanks between them. -/
def joined (v : List String) : String := String.ofList ([' '].intercalate (v.map String.toList))

/-- A string of `build_env`. -/
def envString (x : String) (v : List String) : List Char := x.toList ++ '=' :: (joined v).toList

/-- `build_env`. -/
def buildEnv (vars : Vars) : List (List Char) :=
  (vars.entries.filter fun e => envname e.1 && e.2 ≠ []).map fun e => envString e.1 e.2

/-- What happens to an rc and its group. -/
inductive Event
  /-- `setvar`. -/
  | set (d : Device) (x : String) (v : List String)
  /-- `main` makes the variable `prompt` without a file. -/
  | make (x : String) (v : List String)
  /-- Another process of the group writes to files or removes them. -/
  | other (g : Group)

namespace Proc

/-- `getvar`. -/
def var (r : Proc) (x : String) : List String := (r.vars.lookup x).getD []

def step (r : Proc) : Event → Proc
  | .set d x v => ⟨r.vars.insert x v, r.group.envwrite d x v⟩
  | .make x v => if x ∈ r.vars then r else { r with vars := r.vars.insert x v }
  | .other g => { r with group := g }

def run (r : Proc) (evs : List Event) : Proc := evs.foldl step r

/-- What `main` sets a variable to that `import_env` has not set; nothing is the empty list. -/
def default (r : Proc) (x : String) : List String :=
  if x = "path" then
    match r.var "PATH" with
    | w :: _ => (w.splitOn ":").map fun d => if d = "" then "." else d
    | [] => [".", "/bin"]
  else if x = "home" then r.var "HOME"
  else if x = "user" then r.var "USER"
  else if x = "prompt" then ["% ", "\t"]
  else []

/-- The variables that `main` sets.  None of them is made from another one. -/
def startEvents (r : Proc) (d : Device) : List Event :=
  (["path", "home", "user", "prompt"].filter fun x => x ∉ r.vars ∧ r.default x ≠ []).map fun x =>
    if x = "prompt" then .make x (r.default x) else .set d x (r.default x)

end Proc

/-- A new rc, but for the variables `pid`, `status` and `*`. -/
def start (reads : String → Bool) (g : Group) (env : List (List Char)) (d : Device) : Proc :=
  (imported reads g env).run ((imported reads g env).startEvents d)

/-! ## Files and words -/

/-- What `envwrite` writes for a list. -/
def encode (v : List String) : List Char := v.flatMap fun w => w.toList ++ ['\x00']

/-- The words are C strings. -/
def Clean (v : List String) : Prop := ∀ w ∈ v, '\x00' ∉ w.toList

/-- A list that fits the buffer of `import_env`.  Its last zero byte need not, if the last word has
other bytes: the buffer is closed by a zero of its own. -/
def Short (v : List String) : Prop :=
  (encode v).length ≤ 4095 ∨ (encode v).length = 4096 ∧ v.getLast? ≠ some ""

theorem encode_append (v v' : List String) : encode (v ++ v') = encode v ++ encode v' :=
  List.flatMap_append

theorem encode_singleton (w : String) : encode [w] = w.toList ++ ['\x00'] :=
  List.flatMap_singleton ..

theorem split_append (w l : List Char) (h : '\x00' ∉ w) :
    split (w ++ '\x00' :: l) = w :: split l := by
  induction w with
  | nil => simp [split]
  | cons c w ih =>
    rw [List.mem_cons, not_or] at h
    rw [List.cons_append, split, if_neg (Ne.symm h.1), ih h.2]

/-- Words that end in zero bytes come apart again. -/
theorem split_encode (v : List String) (h : Clean v) (l : List Char) :
    (split (encode v ++ l)).map String.ofList = v ++ (split l).map String.ofList := by
  induction v with
  | nil => rfl
  | cons w v ih =>
    have happ : encode (w :: v) ++ l = w.toList ++ '\x00' :: (encode v ++ l) := by simp [encode]
    rw [happ, split_append _ _ (h w (by simp)), List.map_cons,
      ih fun w' hw' => h w' (List.mem_cons_of_mem _ hw'), String.ofList_toList, List.cons_append]

/-- A last word needs no zero byte. -/
theorem split_word (w : List Char) (h : '\x00' ∉ w) (hne : w ≠ []) : split w = [w] := by
  induction w with
  | nil => exact absurd rfl hne
  | cons c w ih =>
    rw [List.mem_cons, not_or] at h
    rw [split, if_neg (Ne.symm h.1)]
    by_cases hw : w = []
    · rw [hw]
      rfl
    · rw [ih h.2 hw]

theorem split_clean (l : List Char) : ∀ w ∈ split l, '\x00' ∉ w := by
  induction l with
  | nil => simp [split]
  | cons c l ih =>
    rw [split]
    split
    · simpa using ih
    · next hc =>
      split
      · simpa using Ne.symm hc
      · next hl =>
        rw [hl] at ih
        simpa [Ne.symm hc] using ih

theorem readWords_clean (file : List Char) : Clean (readWords file) := by
  intro w hw
  obtain ⟨l, hl, rfl⟩ := List.mem_map.1 hw
  rw [String.toList_ofList]
  exact split_clean _ l hl

/-- What is read has one byte more than the buffer at most. -/
theorem encode_split_length (l : List Char) :
    (encode ((split l).map String.ofList)).length ≤ l.length + 1 := by
  induction l with
  | nil => simp [split, encode]
  | cons c l ih =>
    rw [split]
    split
    · simpa [encode] using ih
    · split
      · simp [encode]
      · next hl =>
        simp only [hl, encode, List.map_cons, List.flatMap_cons, List.length_append,
          String.toList_ofList, List.length_cons, List.length_nil] at ih ⊢
        omega

/-- **The lists that come back** from the files they are written to are those that fit the buffer.
-/
theorem readWords_encode {v : List String} (h : Clean v) : readWords (encode v) = v ↔ Short v := by
  by_cases hlen : (encode v).length ≤ 4095
  · have hsplit := split_encode v h []
    rw [List.append_nil, split, List.map_nil, List.append_nil] at hsplit
    exact iff_of_true (by rw [readWords, List.take_of_length_le hlen, hsplit]) (.inl hlen)
  · rw [Short, or_iff_right hlen]
    obtain ⟨init, w, rfl⟩ : ∃ init w, v = init ++ [w] := by
      rcases List.eq_nil_or_concat v with rfl | ⟨init, w, rfl⟩
      · simp [encode] at hlen
      · exact ⟨init, w, List.concat_eq_append⟩
    rw [List.getLast?_concat, Ne, Option.some_inj]
    by_cases hmore : (encode (init ++ [w])).length = 4096
    · -- the read stops before the last zero byte
      have htake : (encode (init ++ [w])).take 4095 = encode init ++ w.toList := by
        rw [encode_append, encode_singleton, ← List.append_assoc] at hmore ⊢
        rw [List.length_append, List.length_singleton] at hmore
        exact List.take_left' (by omega)
      rw [readWords, htake, split_encode _ fun w' hw' => h w' (by simp [hw'])]
      rw [List.append_cancel_left_eq, and_iff_right hmore]
      by_cases hw : w = ""
      · simp [hw, split]
      · have hne : w.toList ≠ [] := by simpa using hw
        rw [split_word _ (h w (by simp)) hne]
        simp [hw]
    · refine iff_of_false (fun heq => ?_) fun h => hmore h.1
      have hle := encode_split_length ((encode (init ++ [w])).take 4095)
      rw [← readWords, heq, List.length_take] at hle
      omega

/-! ## What the device keeps -/

section

variable {mem : Nat → Bool} {val : List Char}

/-- By induction on the fuel, of which each round uses one and takes a byte at least. -/
theorem writeLoop_eq (hmem : ∀ n ≤ 16384, mem n = true) {fuel : Nat} {rest : List Char}
    (hfuel : rest.length ≤ fuel) (hlen : (val ++ rest).length ≤ 16384) :
    writeLoop mem fuel val rest = val ++ rest := by
  induction fuel generalizing val rest with
  | zero =>
    rw [List.length_eq_zero_iff.1 (Nat.le_zero.1 hfuel), List.append_nil]
    rfl
  | succ fuel ih =>
    have happ : val ++ rest.take 4096 ++ rest.drop 4096 = val ++ rest := by simp
    have hpart : (val ++ rest.take 4096).length ≤ 16384 := by
      rw [← happ, List.length_append] at hlen
      omega
    rw [writeLoop]
    split
    · next hrest => rw [hrest, List.append_nil]
    · next hrest =>
      have hpos := List.length_pos_of_ne_nil hrest
      rw [if_pos ⟨hpart, hmem _ hpart⟩, ih (by rw [List.length_drop]; omega) (happ ▸ hlen), happ]

theorem writeWords_eq (hmem : ∀ n ≤ 16384, mem n = true) {v : List String}
    (hlen : (val ++ encode v).length ≤ 16384) : v.foldl (writeWord mem) val = val ++ encode v := by
  induction v generalizing val with
  | nil => simp [encode]
  | cons w v ih =>
    have hcons : val ++ encode (w :: v) = val ++ (w.toList ++ ['\x00']) ++ encode v := by
      simp [encode]
    rw [hcons] at hlen ⊢
    have hword : writeWord mem val w = val ++ (w.toList ++ ['\x00']) := by
      rw [List.length_append] at hlen
      rw [writeWord, if_pos (hmem _ (by decide)), writeLoop_eq hmem le_rfl (by omega)]
    rw [List.foldl_cons, hword, ih hlen]

end

/-- The device takes a list: `open` works, there is a file or a place for one, the list has at most
`MAXEVAL` bytes and there is memory for it. -/
def Device.Takes (d : Device) (g : Group) (x : String) (v : List String) : Prop :=
  v = [] ∨ d.opened = .given ∧ g.hasPlace x ∧ (encode v).length ≤ 16384 ∧
    ∀ n ≤ 16384, d.mem n = true

namespace Group

variable {g : Group} {x y : String} {v : List String} {b : List Char} {d : Device}

theorem put_lookup_ne (h : x ≠ y) : (g.put y b).files.lookup x = g.files.lookup x := by
  unfold put
  split
  · exact AList.lookup_insert_ne h
  · rfl

theorem envwrite_lookup_ne (h : x ≠ y) :
    (g.envwrite d y v).files.lookup x = g.files.lookup x := by
  unfold envwrite
  split
  · rfl
  split
  · exact AList.lookup_erase_ne h
  split
  · rfl
  · exact put_lookup_ne h
  · exact put_lookup_ne h

theorem envwrite_lookup (hx : envname x) (hdot : x.toList.head? ≠ some '.') (h : d.Takes g x v) :
    (g.envwrite d x v).files.lookup x = if v = [] then none else some (encode v) := by
  have hpath : ¬(¬envname x = true ∨ x = "." ∨ x = "..") := by
    rintro (h | rfl | rfl)
    · exact h hx
    · exact hdot rfl
    · exact hdot rfl
  rw [envwrite, if_neg hpath]
  split
  · exact AList.lookup_erase (β := fun _ : String => List Char) x g.files
  · next hv =>
    obtain ⟨hopen, hplace, hlen, hmem⟩ := h.resolve_left hv
    rw [hopen]
    change (g.put x (v.foldl (writeWord d.mem) [])).files.lookup x = _
    rw [put, dif_pos hplace, writeWords_eq hmem hlen]
    exact AList.lookup_insert _

end Group

/-! ## Runs -/

/-- The events of a run as far as the file of `x` goes: the device takes what this rc sets it to,
and other processes leave it alone. -/
def Regular (x : String) : Proc → List Event → Prop
  | _, [] => True
  | r, .set d y v :: evs =>
    (y = x → Clean v ∧ d.Takes r.group x v) ∧ Regular x (r.step (.set d y v)) evs
  | r, .make y v :: evs => Regular x (r.step (.make y v)) evs
  | r, .other g :: evs =>
    g.files.lookup x = r.group.files.lookup x ∧ Regular x (r.step (.other g)) evs

/-- A file of `x` holds the list of `x`, or is what it was read from. -/
def Holds (x : String) (r : Proc) : Prop :=
  ∀ b, r.group.files.lookup x = some b → ∃ v, r.vars.lookup x = some v ∧
    (b = encode v ∧ Clean v ∨ readWords b = v)

section

variable {x : String} {vars : Vars} {r : Proc} {reads : String → Bool} {g : Group}
  {env : List (List Char)}

/-- What a fold over records does to a variable, if each record of it gives it the same value. -/
theorem foldl_lookup {α : Type} {f : Vars → α → Vars} (key : α → String) (v : List String)
    (l : List α) (hother : ∀ a ∈ l, key a ≠ x → ∀ vars, (f vars a).lookup x = vars.lookup x)
    (hsame : ∀ a ∈ l, key a = x → ∀ vars, vars.lookup x ∈ [none, some v] →
      (f vars a).lookup x = some v) (hvars : vars.lookup x ∈ [none, some v]) :
    (l.foldl f vars).lookup x = if ∃ a ∈ l, key a = x then some v else vars.lookup x := by
  induction l generalizing vars with
  | nil => simp
  | cons a l ih =>
    have ih' (hv : (f vars a).lookup x ∈ [none, some v]) :=
      ih (fun b hb => hother b (.tail a hb)) (fun b hb => hsame b (.tail a hb)) hv
    rw [List.foldl_cons]
    by_cases hx : key a = x
    · have hset := hsame a (.head l) hx vars hvars
      rw [ih' (by simp [hset]), hset, ite_self, if_pos ⟨a, .head l, hx⟩]
    · have hkeep := hother a (.head l) hx vars
      rw [ih' (by rwa [hkeep]), hkeep]
      simp [hx]

theorem importFile_ne {e : Sigma fun _ : String => List Char} (h : e.1 ≠ x) :
    (importFile reads vars e).lookup x = vars.lookup x := by
  unfold importFile
  split
  · rfl
  · exact AList.lookup_insert_ne (Ne.symm h)

/-- The file of a variable that `import_env` can read. -/
def Group.visible (g : Group) (reads : String → Bool) (x : String) : Option (List Char) :=
  if x.toList.head? = some '.' ∨ reads x = false then none else g.files.lookup x

/-- The files of `/env` give the words they hold. -/
theorem importFiles_lookup :
    (g.files.entries.foldl (importFile reads) ∅).lookup x = (g.visible reads x).map readWords := by
  unfold Group.visible
  split
  · next h =>
    refine List.foldlRecOn (motive := fun vars : Vars => vars.lookup x = none) _ _ (by simp)
      fun vars hvars e _ => ?_
    by_cases hx : e.1 = x
    · rwa [importFile, if_pos (hx ▸ h)]
    · rwa [importFile_ne hx]
  · next h =>
    cases hfile : g.files.lookup x with
    | none =>
      rw [foldl_lookup Sigma.fst [] _ (fun e _ hx _ => importFile_ne hx)
        (fun e he hx => ?_) (by simp), if_neg]
      · simp
      · rintro ⟨e, he, rfl⟩
        exact AList.lookup_eq_none.1 hfile (List.mem_map_of_mem he)
      · exact absurd (List.mem_map_of_mem he) (hx ▸ AList.lookup_eq_none.1 hfile)
    | some b =>
      have hmem : (⟨x, b⟩ : Sigma fun _ => List Char) ∈ g.files.entries :=
        AList.mem_lookup_iff.1 hfile
      rw [foldl_lookup Sigma.fst (readWords b) _ (fun e _ hx _ => importFile_ne hx)
        (fun e he hx vars _ => ?_) (by simp), if_pos ⟨_, hmem, rfl⟩]
      · rfl
      · obtain ⟨y, c⟩ := e
        obtain rfl : y = x := hx
        obtain rfl : c = b := Option.some_inj.1 ((AList.mem_lookup_iff.2 he).symm.trans hfile)
        rw [importFile, if_neg h, AList.lookup_insert]

theorem importString_kept {s : List Char}
    (h : x ∈ vars ∨ String.ofList (s.takeWhile (· ≠ '=')) ≠ x) :
    (importString vars s).lookup x = vars.lookup x := by
  unfold importString
  dsimp only
  split
  · rfl
  · next hs =>
    refine AList.lookup_insert_ne ?_
    rintro rfl
    grind

/-- The strings leave a variable with a file alone. -/
theorem imported_visible {b : List Char} (h : g.visible reads x = some b) :
    (imported reads g env).vars.lookup x = some (readWords b) := by
  refine List.foldlRecOn (motive := fun vars : Vars => vars.lookup x = some (readWords b)) _ _
    (by rw [importFiles_lookup, h]; rfl) fun vars hvars s _ => ?_
  rwa [importString_kept (.inl (AList.lookup_isSome.1 (by simp [hvars])))]

theorem imported_holds (hdot : x.toList.head? ≠ some '.') (hreads : reads x = true) :
    Holds x (imported reads g env) := by
  intro b hb
  refine ⟨_, imported_visible ?_, .inr rfl⟩
  rw [Group.visible, if_neg (by simp [hdot, hreads])]
  exact hb

/-- One event, by cases: what rc sets is written, a new variable had no file, and the rest leaves
variable and file alone. -/
theorem run_holds (hx : envname x) (hdot : x.toList.head? ≠ some '.') (evs : List Event)
    (hreg : Regular x r evs) (h : Holds x r) : Holds x (r.run evs) := by
  induction evs generalizing r with
  | nil => exact h
  | cons ev evs ih =>
    cases ev with
    | set d y v =>
      refine ih hreg.2 fun b hb => ?_
      by_cases hy : y = x
      · subst hy
        obtain ⟨hclean, htakes⟩ := hreg.1 rfl
        refine ⟨v, AList.lookup_insert _, .inl ⟨?_, hclean⟩⟩
        rw [Proc.step, Group.envwrite_lookup hx hdot htakes] at hb
        split at hb
        · cases hb
        · exact (Option.some_inj.1 hb).symm
      · rw [Proc.step, Group.envwrite_lookup_ne (Ne.symm hy)] at hb
        rw [Proc.step, AList.lookup_insert_ne (Ne.symm hy)]
        exact h b hb
    | make y v =>
      refine ih hreg fun b hb => ?_
      rw [Proc.step] at hb ⊢
      split
      · next hy => exact h b (by simpa [hy] using hb)
      · next hy =>
        rw [if_neg hy] at hb
        obtain ⟨v', hv', hor⟩ := h b hb
        refine ⟨v', ?_, hor⟩
        rw [AList.lookup_insert_ne, hv']
        rintro rfl
        exact hy (AList.lookup_isSome.1 (by simp [hv']))
    | other g =>
      exact ih hreg.2 fun b hb => h b (hreg.1.symm.trans hb)

/-! ## The start of another rc -/

theorem envString_name {y : String} (h : '=' ∉ y.toList) (v : List String) :
    (envString y v).takeWhile (· ≠ '=') = y.toList := by
  rw [envString, List.takeWhile_append_of_pos
    (by simpa using fun c hc (h' : c = '=') => h (h' ▸ hc))]
  simp

theorem importString_new {v : List String} (hx : envname x) (heq : '=' ∉ x.toList)
    (h : vars.lookup x ∈ [none, some [joined v]]) :
    (importString vars (envString x v)).lookup x = some [joined v] := by
  by_cases hmem : x ∈ vars
  · rw [importString_kept (.inl hmem)]
    have := AList.lookup_isSome.2 hmem
    grind
  · have hlen : ¬64 ≤ x.toList.length := by
      simp only [envname, Bool.and_eq_true, decide_eq_true_eq] at hx
      omega
    rw [importString]
    simp only [envString_name heq, String.ofList_toList]
    rw [if_neg (by simp [envString, hmem, hlen]), AList.lookup_insert]
    simp [envString, joined]

/-- A variable without a visible file comes as one word. -/
theorem imported_string (hx : envname x) (hfile : g.visible reads x = none)
    (heq : ∀ y ∈ vars, '=' ∉ y.toList) : (imported reads g (buildEnv vars)).vars.lookup x =
      if (vars.lookup x).getD [] = [] then none else some [joined ((vars.lookup x).getD [])] := by
  have hname : ∀ e ∈ vars.entries, String.ofList ((envString e.1 e.2).takeWhile (· ≠ '=')) = e.1 :=
    fun e he => by rw [envString_name (heq _ (List.mem_map_of_mem he)), String.ofList_toList]
  have hval : ∀ e ∈ vars.entries, e.1 = x → e.2 = (vars.lookup x).getD [] := by
    rintro ⟨y, v⟩ he rfl
    rw [AList.mem_lookup_iff.2 he]
    rfl
  rw [imported, foldl_lookup (fun s => String.ofList (s.takeWhile (· ≠ '=')))
    [joined ((vars.lookup x).getD [])] _ (fun s _ hs _ => importString_kept (.inr hs))
    ?_ (by rw [importFiles_lookup, hfile]; simp), importFiles_lookup, hfile]
  · refine (if_congr ?_ rfl rfl).trans (ite_not ..)
    simp only [buildEnv, List.mem_map, exists_exists_and_eq_and, List.mem_filter, Bool.and_eq_true,
      decide_eq_true_eq]
    constructor
    · rintro ⟨e, ⟨he, -, hne⟩, hex⟩
      rwa [← hval e he ((hname e he).symm.trans hex)]
    · intro hne
      obtain ⟨v, hv⟩ : ∃ v, vars.lookup x = some v := by
        cases h : vars.lookup x with
        | none => simp [h] at hne
        | some v => exact ⟨v, rfl⟩
      have hmem := AList.mem_lookup_iff.1 hv
      exact ⟨⟨x, v⟩, ⟨hmem, hx, by simpa [hv] using hne⟩, hname _ hmem⟩
  · simp only [buildEnv, List.forall_mem_map, List.mem_filter]
    rintro e ⟨he, -⟩ hex vars' hvars'
    obtain rfl := (hname e he).symm.trans hex
    rw [← hval e he rfl] at hvars' ⊢
    exact importString_new hx (heq _ (List.mem_map_of_mem he)) hvars'

theorem joined_eq {v : List String} (h : v ≠ []) : [joined v] = v ↔ v.length = 1 := by
  constructor
  · intro heq
    rw [← heq]
    rfl
  · intro hlen
    obtain ⟨w, rfl⟩ := List.length_eq_one_iff.1 hlen
    simp [joined, List.intercalate]

/-- What `main` does to a variable with the events for the names `l`. -/
theorem run_defaults {d : Device} (r r' : Proc) (l : List String) (hl : l.Nodup)
    (hnew : x ∈ l → x ∉ r'.vars) :
    (r'.run (l.map fun y => if y = "prompt" then .make y (r.default y) else
      .set d y (r.default y))).vars.lookup x =
    if x ∈ l then some (r.default x) else r'.vars.lookup x := by
  induction l generalizing r' with
  | nil => simp [Proc.run]
  | cons y l ih =>
    rw [List.nodup_cons] at hl
    by_cases hy : x = y
    · subst hy
      have hmem := hnew (.head l)
      rw [List.map_cons, Proc.run, List.foldl_cons, ← Proc.run, ih _ hl.2 fun h => absurd h hl.1,
        if_neg hl.1, if_pos (List.mem_cons_self ..)]
      split
      · rw [Proc.step, if_neg hmem]
        exact AList.lookup_insert _
      · exact AList.lookup_insert _
    · have hstep : ∀ ev, ev = (if y = "prompt" then Event.make y (r.default y) else
          .set d y (r.default y)) → (r'.step ev).vars.lookup x = r'.vars.lookup x := by
        rintro _ rfl
        split
        · rw [Proc.step]
          split
          · rfl
          · exact AList.lookup_insert_ne hy
        · exact AList.lookup_insert_ne hy
      have hkept := hstep _ rfl
      rw [List.map_cons, Proc.run, List.foldl_cons, ← Proc.run, ih _ hl.2, hkept]
      · simp [hy]
      · rw [← AList.lookup_eq_none, hkept, AList.lookup_eq_none]
        exact fun h => hnew (.tail y h)

theorem default_eq_nil (h : x ∉ ["path", "home", "user", "prompt"]) : r.default x = [] := by
  simp only [List.mem_cons, List.not_mem_nil, or_false, not_or] at h
  simp [Proc.default, h]

/-- A new rc has what it imports, and else what `main` sets. -/
theorem start_var {d : Device} : (start reads g env d).var x =
    ((imported reads g env).vars.lookup x).getD ((imported reads g env).default x) := by
  set r := imported reads g env with hr
  have hnew : x ∈ ["path", "home", "user", "prompt"].filter
      (fun y => decide (y ∉ r.vars ∧ r.default y ≠ [])) ↔ x ∉ r.vars ∧ r.default x ≠ [] := by
    rw [List.mem_filter, decide_eq_true_eq, and_iff_right_iff_imp]
    exact fun h => not_not.1 fun hx => h.2 (default_eq_nil hx)
  rw [start, ← hr, Proc.startEvents, Proc.var, run_defaults r r _ (.filter _ (by decide))
    fun h => (hnew.1 h).1]
  by_cases hx : x ∈ r.vars
  · obtain ⟨v, hv⟩ := Option.isSome_iff_exists.1 (AList.lookup_isSome.2 hx)
    rw [if_neg fun h => (hnew.1 h).1 hx, hv]
    rfl
  · rw [AList.lookup_eq_none.2 hx]
    by_cases hdef : r.default x = []
    · rw [if_neg fun h => (hnew.1 h).2 hdef, hdef]
    · rw [if_pos (hnew.2 ⟨hx, hdef⟩)]
      rfl

end

/-- An empty group. -/
def Group.empty : Group := ⟨∅, by decide⟩

/-- A device that takes all. -/
def Device.fine : Device := ⟨.given, fun _ => true⟩

/-- An rc without an environment, after `x=v`. -/
def assigned (v : List String) : Proc :=
  (imported (fun _ => true) .empty []).run [.set .fine "x" v]

theorem assigned_regular {v : List String} (hclean : Clean v) (hlen : (encode v).length ≤ 16384) :
    Regular "x" (imported (fun _ => true) .empty []) [.set .fine "x" v] :=
  ⟨fun _ => ⟨hclean, .inr ⟨rfl, .inr (by decide), hlen, fun _ _ => rfl⟩⟩, trivial⟩

/-- The prompt that `main` makes has no file and is one word in the new rc. -/
theorem prompt_joined : let r := start (fun _ => true) .empty [] .fine
    r.var "prompt" = ["% ", "\t"] ∧
      (start (fun _ => true) r.group (buildEnv r.vars) .fine).var "prompt" = ["%  \t"] := by
  decide +kernel

end Tortoise.Rc
