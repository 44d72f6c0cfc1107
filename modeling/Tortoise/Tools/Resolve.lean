import Tortoise.Lib.Fallible
import Tortoise.Tools.Layout

/-!
# How the linker resolves symbols

* `Obj.Checked`: what the reader of object files makes sure of;
* `definitions`, `linkerSyms`: the names a program can use, with their addresses;
* `Globals.Knows`: the symbol table after each of its loops is the list of definitions;
* `resolve_spec`: when nothing is wrong the table has every definition, each name once.
-/

namespace Tortoise.Tools

open Lib List

variable {s : OSym} {path : String} {a : Word}

section

variable (T : Nat) (objs : List Obj)

/-- The address of a symbol that object `i` defines: its section and its value. -/
def symAddr (i : Nat) (s : OSym) : Word :=
  if s.sec = 4 then s.val else BitVec.ofNat 32 (addrOf T objs i s.sec) + s.val

/-- The global definitions of the objects. -/
def definitions : List (List Byte × Word) :=
  objs.zipIdx.flatMap fun p =>
    (p.1.syms.filter OSym.global).map fun s => (p.1.name s, symAddr T objs p.2 s)

/-- The symbols of the linker. -/
def linkerSyms : List (List Byte × Word) :=
  [(bytes "_etext", BitVec.ofNat 32 (textEnd T objs)),
    (bytes "_edata", BitVec.ofNat 32 (dataEnd T objs)),
    (bytes "_end", BitVec.ofNat 32 (bssEnd T objs))]

end

/-! ## The table of global symbols -/

/-- The table knows the definitions of a list, the first one of each name. -/
structure Globals.Knows (g : Globals) (ds : List (List Byte × Word)) : Prop where
  addr : ∀ n, gaddr g n = ds.lookup n
  nodup : g.errors = [] → (ds.map Prod.fst).Nodup

section

variable {g g' : Globals} {n m : List Byte} {i : Nat} {ds : List (List Byte × Word)}

theorem gget_some (h : g.index.find n = some i) : gget g n = (g, i) := by
  unfold gget
  rw [show g.index.get n = (g.index, i) by unfold Chains.get; rw [h]]
  exact if_pos rfl

theorem gget_none (h : g.index.find n = none) : gget g n =
    ({ g with index := g.index.push n
              sym := Function.update g.sym g.index.keys.length ⟨none, 0, false⟩ },
      g.index.keys.length) := by
  unfold gget
  rw [show g.index.get n = (g.index.push n, g.index.keys.length) by unfold Chains.get; rw [h]]
  exact if_neg (by simp [Chains.push])

theorem gget_errors : (gget g n).1.errors = g.errors := by
  cases h : g.index.find n with
  | none => rw [gget_none h]
  | some i => rw [gget_some h]

theorem gget_find : (gget g n).1.index.find n = some (gget g n).2 := by
  cases h : g.index.find n with
  | none =>
    rw [gget_none h]
    exact (g.index.find_push).trans (if_pos rfl)
  | some i =>
    rw [gget_some h]
    exact h

theorem gaddr_gget : gaddr (gget g n).1 m = gaddr g m := by
  cases h : g.index.find n with
  | some i => rw [gget_some h]
  | none =>
    rw [gget_none h]
    unfold gaddr
    simp only [g.index.find_push]
    by_cases hm : m = n
    · rw [if_pos hm, hm, h]
      simp
    · rw [if_neg hm]
      cases hj : g.index.find m with
      | none => rfl
      | some j =>
        have hlt : j < g.index.keys.length :=
          (List.getElem?_eq_some_iff.1 (g.index.find_eq_some hj)).1
        simp only [Function.update_of_ne hlt.ne]

theorem gaddr_of_find (h : g.index.find n = some i) :
    gaddr g n = if (g.sym i).defined then some (g.sym i).addr else none := by
  unfold gaddr
  rw [h]

theorem gaddr_set {obj : Option String} (h : g.index.find n = some i) :
    gaddr (g.set i ⟨obj, a, true⟩) m = if m = n then some a else gaddr g m := by
  unfold gaddr Globals.set
  by_cases hm : m = n
  · rw [if_pos hm, hm, h]
    simp
  · rw [if_neg hm]
    cases hj : g.index.find m with
    | none => rfl
    | some j =>
      have hne : j ≠ i := by
        rintro rfl
        exact hm (g.index.find_ne hj (g.index.find_eq_some h))
      simp only [Function.update_of_ne hne]

theorem lookup_concat (ds : List (List Byte × Word)) (n m : List Byte) (a : Word) :
    (ds ++ [(n, a)]).lookup m = (ds.lookup m).or (if m = n then some a else none) := by
  induction ds with
  | nil =>
    by_cases hm : m = n
    · simp [hm]
    · have hne : (m == n) = false := by simpa using hm
      simp [lookup_cons, hm, hne]
  | cons d ds ih =>
    rw [List.cons_append, lookup_cons, lookup_cons, ih]
    cases m == d.1 <;> rfl

theorem lookup_eq_none (h : ds.lookup n = none) : n ∉ ds.map Prod.fst := by
  rw [lookup_eq_none_iff] at h
  intro hmem
  obtain ⟨d, hd, rfl⟩ := mem_map.1 hmem
  exact absurd (h d hd) (by simp)

theorem mem_of_lookup (h : ds.lookup n = some a) : (n, a) ∈ ds := by
  obtain ⟨l₁, l₂, rfl, -⟩ := lookup_eq_some_iff.1 h
  simp

/-- One more definition, of a name that had none. -/
theorem Globals.Knows.define {obj : Option String} (h : g.Knows ds) (hn : gaddr g n = none)
    : ((gget g n).1.set (gget g n).2 ⟨obj, a, true⟩).Knows (ds ++ [(n, a)]) where
  addr m := by
    rw [gaddr_set gget_find, gaddr_gget, lookup_concat, ← h.addr]
    by_cases hm : m = n
    · rw [if_pos hm, if_pos hm, hm, hn]
      rfl
    · rw [if_neg hm, if_neg hm, Option.or_none]
  nodup he := by
    rw [h.addr] at hn
    have he' : g.errors = [] := gget_errors.symm.trans he
    rw [map_append, map_singleton]
    refine List.Nodup.append (h.nodup he') (nodup_singleton n) ?_
    rintro k hk hk'
    rw [mem_singleton.1 hk'] at hk
    exact lookup_eq_none hn hk

/-- The turn of one global symbol. -/
theorem Globals.Knows.defineSym {o : Placed} (h : g.Knows ds) (hs : s.global = true) :
    (defineSym o g s).Knows (ds ++ [(o.obj.name s, o.addr s)]) := by
  have hdef := gaddr_of_find (gget_find (g := g) (n := o.obj.name s))
  rw [gaddr_gget] at hdef
  unfold Tools.defineSym
  rw [if_pos hs]
  by_cases hd : ((gget g (o.obj.name s)).1.sym (gget g (o.obj.name s)).2).defined = true
  · -- the name is defined already: an error, and the first definition stays
    simp only [if_pos hd] at hdef ⊢
    refine ⟨fun m => ?_, fun he => absurd he (by simp)⟩
    rw [lookup_concat, ← h.addr]
    refine (gaddr_gget (g := g) (n := o.obj.name s)).trans ?_
    by_cases hm : m = o.obj.name s
    · rw [hm, hdef]
      rfl
    · rw [if_neg hm, Option.or_none]
  · simp only [if_neg hd] at hdef ⊢
    exact h.define hdef

theorem Globals.Knows.defineObj (o : Placed) (syms : List OSym) (h : g.Knows ds) :
    (syms.foldl (Tools.defineSym o) g).Knows
      (ds ++ (syms.filter OSym.global).map fun s => (o.obj.name s, o.addr s)) := by
  induction syms generalizing g ds with
  | nil => simpa using h
  | cons s syms ih =>
    rw [foldl_cons]
    cases hs : s.global with
    | true =>
      rw [filter_cons_of_pos hs, map_cons, append_cons]
      exact ih (h.defineSym hs)
    | false =>
      have hsame : Tools.defineSym o g s = g := if_neg (by simp [hs])
      rw [hsame, filter_cons_of_neg (by simp [hs])]
      exact ih h

theorem Globals.Knows.defineObjs (objs : List Placed) (h : g.Knows ds) :
    (objs.foldl (fun g o => o.obj.syms.foldl (Tools.defineSym o) g) g).Knows
      (ds ++ objs.flatMap fun o => (o.obj.syms.filter OSym.global).map fun s =>
        (o.obj.name s, o.addr s)) := by
  induction objs generalizing g ds with
  | nil => simpa using h
  | cons o objs ih =>
    rw [foldl_cons, flatMap_cons, ← List.append_assoc]
    exact ih (h.defineObj o o.obj.syms)

theorem Globals.Knows.defineSpecial (h : g.Knows ds) (hg : defineSpecial n a g = .ok g')
    : g'.Knows (ds ++ [(n, a)]) := by
  have hdef := gaddr_of_find (gget_find (g := g) (n := n))
  rw [gaddr_gget] at hdef
  unfold Tools.defineSpecial at hg
  by_cases hd : ((gget g n).1.sym (gget g n).2).defined = true
  · simp only [if_pos hd] at hg
    cases hg
  · simp only [if_neg hd] at hg hdef
    cases hg
    exact h.define hdef

end

/-! ## What has been checked -/

/-- What `read_obj` makes sure of. -/
structure Obj.Checked (o : Obj) : Prop where
  sym : ∀ s ∈ o.syms, s.sec ≤ 4
  rel : ∀ r ∈ o.rels, (r.sec = 1 ∨ r.sec = 2) ∧ r.sym.toNat < o.syms.length ∧
    1 ≤ r.type ∧ r.type ≤ 3

theorem length_readSyms (n : Nat) (b : List Byte) : (readSyms n b).length = n := by
  induction n generalizing b with
  | zero => rfl
  | succ n ih => simp [readSyms, ih]

theorem badSym_none {strsz : Word} (h : badSym strsz path s = none) :
    s.sec ≤ 4 := by
  unfold badSym at h
  split_ifs at h with h1 h2
  omega

theorem badRel_none {size : Nat → Word} {nsyms : Word} {r : ORel}
    (h : badRel size nsyms path r = none) :
    (r.sec = 1 ∨ r.sec = 2) ∧ r.sym < nsyms ∧ 1 ≤ r.type ∧ r.type ≤ 3 := by
  unfold badRel at h
  extract_lets lim at h
  clear_value lim
  split_ifs at h with h1 h2 h3
  refine ⟨by omega, BitVec.not_le.1 h2, by omega, by omega⟩

theorem readObj_checked {file : List Byte} {lib : Bool} {o : Obj}
    (h : readObj path file lib = .ok o) : o.Checked := by
  unfold readObj at h
  split at h
  · cases h
  · rename_i hdr f hf
    split_ifs at h with hmagic
    obtain ⟨text, -, h⟩ := ok_of_bind h
    obtain ⟨data, -, h⟩ := ok_of_bind h
    obtain ⟨sb, -, h⟩ := ok_of_bind h
    obtain ⟨rb, -, h⟩ := ok_of_bind h
    obtain ⟨str, -, h⟩ := ok_of_bind h
    dsimp only at h
    split at h
    · cases h
    · rename_i hsyms
      split at h
      · cases h
      · rename_i hrels
        cases h
        rw [List.findSome?_eq_none_iff] at hsyms hrels
        refine ⟨fun s hs => badSym_none (hsyms s hs), fun r hr => ?_⟩
        obtain ⟨h1, h2, h3⟩ := badRel_none (hrels r hr)
        refine ⟨h1, ?_, h3⟩
        rw [length_readSyms]
        exact h2

theorem readAll_checked {is : List Input} {objs : List Obj} : ∀ {n : Nat},
    readAll n is = .ok objs → ∀ o ∈ objs, o.Checked := by
  induction is generalizing objs with
  | nil =>
    intro n h
    cases h
    exact nofun
  | cons i is ih =>
    intro n h
    unfold readAll at h
    split_ifs at h with hn
    obtain ⟨o, ho, h⟩ := ok_of_bind h
    obtain ⟨os, hos, h⟩ := ok_of_bind h
    cases h
    exact forall_mem_cons.2 ⟨readObj_checked ho, ih hos⟩

/-! ## The symbols of a link -/

section

variable {T : Word} {objs : List Obj} {g : Globals}

theorem placedAt_addr {n i : Nat} {o : Obj} (h0 : s.sec ≠ 0) (h4 : s.sec ≤ 4) :
    (placedAt n objs i o).addr s = symAddr n objs i s := by
  unfold Placed.addr symAddr
  by_cases hs : s.sec = 4
  · rw [if_neg (by omega), if_pos hs]
  · have hr : 1 ≤ s.sec ∧ s.sec ≤ 3 := by omega
    rw [if_pos hr, if_neg hs]
    exact congrArg (· + s.val) (if_pos hr)

theorem definitions_eq (hc : ∀ o ∈ objs, o.Checked) (n : Nat) :
    ((objs.mapIdx (placedAt n objs)).flatMap fun o => (o.obj.syms.filter OSym.global).map fun s =>
      (o.obj.name s, o.addr s)) = definitions n objs := by
  unfold definitions
  rw [mapIdx_eq_zipIdx_map, flatMap_map]
  apply flatMap_congr
  intro p hp
  apply map_congr_left
  intro s hs
  rw [mem_filter] at hs
  have ho : p.1 ∈ objs := (mem_zipIdx' hp).2 ▸ getElem_mem _
  have hg := hs.2
  simp only [OSym.global, Bool.and_eq_true, decide_eq_true_eq] at hg
  have haddr : (placedAt n objs p.2 p.1).addr s = symAddr n objs p.2 s :=
    placedAt_addr hg.2 ((hc _ ho).sym s hs.1)
  simp only [haddr]
  rfl

/-- **The symbol table**: when nothing is wrong it has the definitions of the objects and
of the linker, each name once, and every name that is used. -/
theorem resolve_spec (hc : ∀ o ∈ objs, o.Checked) (h : resolve (layout T objs) = .ok g) :
    g.Knows (definitions T.toNat objs ++ linkerSyms T.toNat objs) ∧ g.errors = [] ∧
      undefinedSyms g (layout T objs).objs = [] := by
  obtain ⟨hobjs, htext, hdata, hdata', -, hbss⟩ := layout_eq T objs
  have h0 : (⟨.empty, fun _ => ⟨none, 0, false⟩, []⟩ : Globals).Knows [] :=
    ⟨fun n => rfl, fun _ => nodup_nil⟩
  have h1 := h0.defineObjs (layout T objs).objs
  rw [nil_append, hobjs, definitions_eq hc] at h1
  unfold resolve defineSyms at h
  rw [hobjs, htext, hdata', hbss] at h
  obtain ⟨g₁, hg₁, h⟩ := ok_of_bind h
  obtain ⟨g₂, hg₂, h⟩ := ok_of_bind h
  obtain ⟨g₃, hg₃, h⟩ := ok_of_bind h
  dsimp only at h
  split_ifs at h with he
  cases h
  rw [not_not, append_eq_nil_iff] at he
  have h2 := ((h1.defineSpecial hg₁).defineSpecial hg₂).defineSpecial hg₃
  rw [List.append_assoc, List.append_assoc] at h2
  exact ⟨h2, he.1, by rw [hobjs]; exact he.2⟩

end

end Tortoise.Tools
