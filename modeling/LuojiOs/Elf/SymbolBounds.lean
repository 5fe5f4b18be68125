import LuojiOs.Elf.TableOrder

/-!
# When symbols are read in order

The loop over the symbols of `elfreadsyms` checks the names of some and takes all.  With the loop
over the tables before it, this tells for which files and memories the function comes back, divides
by no zero and takes only symbols that it should.
-/

namespace LuojiOs

namespace Elf

open Loops Smallest

/-! ## The names that are known -/

namespace Symtab

variable {t : Symtab} {name n : CString} {value : BitVec 32} {mem : Bool} {sym : Sym}

theorem sameName_iff : sameName name sym = true ↔ sym.name = name := by
  obtain ⟨value, symName⟩ := sym
  unfold sameName
  rw [Bool.and_eq_true, decide_eq_true_iff, decide_eq_true_iff]
  dsimp only
  cases name with
  | nil =>
      cases symName with
      | nil => exact iff_of_true ⟨rfl, rfl⟩ rfl
      | cons c s => exact iff_of_false (fun h => by cases h.1) nofun
  | cons c s =>
      cases symName with
      | nil => exact iff_of_false (fun h => by cases h.1) nofun
      | cons d s' =>
          constructor
          · rintro ⟨hhead, htail⟩
            cases hhead
            cases htail
            rfl
          · intro h
            cases h
            exact ⟨rfl, rfl⟩

/-- There is a symbol of this name in the chain. -/
def Knows (t : Symtab) (name : CString) : Prop :=
  name ∈ (t.symhash (bucketOf name)).map Sym.name

instance : Decidable (t.Knows name) := inferInstanceAs (Decidable (_ ∈ _))

theorem any_sameName {syms : List Sym} :
    syms.any (sameName name) = true ↔ name ∈ syms.map Sym.name := by
  rw [List.any_eq_true, List.mem_map]
  exact exists_congr fun sym => and_congr_right fun _ => sameName_iff

/-- `newsym` fails only for a new name for which there is no memory. -/
theorem newsym_fst : (t.newsym name value mem).1 = true ↔ mem = true ∨ t.Knows name := by
  unfold newsym Knows
  dsimp only
  split
  · next h => exact iff_of_true rfl (Or.inr (any_sameName.mp h))
  · next h =>
    rw [or_iff_left (mt any_sameName.mpr h)]
    cases mem with
    | false => exact iff_of_false nofun nofun
    | true => exact iff_of_true rfl rfl

/-- The names in a chain behind a call. -/
theorem names_newsym (h : (t.newsym name value mem).1 = true) (b : Fin NHASH) :
    ((t.newsym name value mem).2.symhash b).map Sym.name =
      if b = bucketOf name ∧ ¬t.Knows name then name :: (t.symhash b).map Sym.name
      else (t.symhash b).map Sym.name := by
  unfold newsym at h ⊢
  dsimp only at h ⊢
  split at h
  · next hknown =>
    rw [if_pos hknown, if_neg fun hno => hno.2 (any_sameName.mp hknown)]
    dsimp only
    by_cases hb : b = bucketOf name
    · rw [hb, Function.update_self]
      refine List.lookmap_map_eq _ _ (fun sym sym' hsym => ?_) _
      split at hsym
      · cases hsym
        rfl
      · cases hsym
    · rw [Function.update_of_ne hb]
  · next hknown =>
    rw [if_neg hknown]
    split at h
    · next hmem =>
      rw [if_pos hmem]
      dsimp only
      by_cases hb : b = bucketOf name
      · rw [hb, Function.update_self, if_pos ⟨rfl, mt any_sameName.mpr hknown⟩]
        rfl
      · rw [Function.update_of_ne hb, if_neg fun hno => hb hno.1]
    · cases h

theorem knows_newsym (h : (t.newsym name value mem).1 = true) :
    (t.newsym name value mem).2.Knows n ↔ t.Knows n ∨ name = n := by
  have hnames := names_newsym h (bucketOf n)
  unfold Knows at hnames ⊢
  rw [hnames]
  by_cases hn : name = n
  · subst hn
    refine iff_of_true ?_ (Or.inr rfl)
    split
    · exact List.mem_cons_self
    · next hno =>
      by_contra hknows
      exact hno ⟨rfl, hknows⟩
  · rw [or_iff_left hn]
    split
    · rw [List.mem_cons]
      exact or_iff_right (Ne.symm hn)
    · rfl

end Symtab

/-! ## The loop over the symbols -/

/-- `newsym` is called for globals and functions only, and with names in the table of the
strings. -/
def Checked (strSize : BitVec 32) (calls : List ElfSym) : Prop :=
  ∀ sym ∈ calls, sym.used = true ∧ sym.stName < strSize

/-- What the loop over the symbols begins with. -/
structure SymLoop where
  mem : Memory
  mapped : BitVec 32 → Bool
  strtab : BitVec 32
  strSize : BitVec 32
  malloc : ℕ → Bool
  table : Symtab

namespace SymLoop

variable (l : SymLoop)

def sym (a : BitVec 32) : ElfSym := l.mem.sym a

def name (a : BitVec 32) : Option CString := nameOf l.mem l.mapped l.strtab a

/-- The symbol at a place can be read.  It is passed over, or it is one whose name is checked, and a
name in the table of the strings can be read up to its end. -/
structure Fine (a : BitVec 32) : Prop where
  info : Mapped l.mapped (a + 12) 4
  used : (l.sym a).skipped = false → Mapped l.mapped a 4 ∧ (l.sym a).used = true
  name : (l.sym a).skipped = false → (l.sym a).stName < l.strSize → (l.name a).isSome = true

/-- A symbol at one of the places is taken with this name. -/
def Takes (places : List (BitVec 32)) (n : CString) : Prop :=
  ∃ a ∈ places, (l.sym a).skipped = false ∧ l.name a = some n

/-- The loop goes on from a symbol behind those at `front`, if it goes on from these: the symbol is
passed over, or its name is not out of range, and is known or can be stored. -/
def Passes (front : List (BitVec 32)) (a : BitVec 32) : Prop :=
  (l.sym a).skipped = true ∨
  ((l.sym a).used = true → (l.sym a).stName < l.strSize) ∧
    ∃ n, l.name a = some n ∧
      (l.malloc front.length = true ∨ l.table.Knows n ∨ l.Takes front n)

def AllPass (places : List (BitVec 32)) : Prop :=
  ∀ front a rest, places = front ++ a :: rest → l.Passes front a

/-- The symbols are fine as far as the loop comes. -/
def Clean (places : List (BitVec 32)) : Prop :=
  ∀ front a rest, places = front ++ a :: rest → l.AllPass front → l.Fine a

variable {l} {t t' : Symtab} {front rest places : List (BitVec 32)} {a : BitVec 32}

theorem allPass_nil : l.AllPass [] := by
  intro front a rest h
  cases front with
  | nil => cases h
  | cons b front => cases h

theorem allPass_snoc : l.AllPass (places ++ [a]) ↔ l.AllPass places ∧ l.Passes places a := by
  constructor
  · intro h
    refine ⟨fun front b rest heq => ?_, h places a [] rfl⟩
    exact h front b (rest ++ [a]) (by rw [heq, List.append_assoc, List.cons_append])
  · rintro ⟨h, ha⟩ front b rest heq
    rcases List.eq_nil_or_concat rest with rfl | ⟨rest, c, rfl⟩
    · obtain ⟨rfl, hab⟩ := List.append_inj' heq rfl
      cases hab
      exact ha
    · rw [List.concat_eq_append, ← List.cons_append, ← List.append_assoc] at heq
      obtain ⟨rfl, -⟩ := List.append_inj' heq rfl
      exact h front b rest rfl

theorem AllPass.of_append (h : l.AllPass (front ++ rest)) : l.AllPass front :=
  fun front' b rest' heq =>
    h front' b (rest' ++ rest) (by rw [heq, List.append_assoc, List.cons_append])

/-- The symbols at the places are fine, as far as the loop comes behind those at `front`. -/
def CleanBehind (l : SymLoop) (front places : List (BitVec 32)) : Prop :=
  ∀ mid a rest, places = mid ++ a :: rest → l.AllPass (front ++ mid) → l.Fine a

theorem cleanBehind_nil : l.CleanBehind front [] := by
  intro mid a rest h
  cases mid with
  | nil => cases h
  | cons b mid => cases h

theorem cleanBehind_cons (hfront : l.AllPass front) : l.CleanBehind front (a :: places) ↔
    l.Fine a ∧ (l.Passes front a → l.CleanBehind (front ++ [a]) places) := by
  constructor
  · intro h
    refine ⟨h [] a places rfl (by rwa [List.append_nil]), fun _ mid b rest heq hall => ?_⟩
    refine h (a :: mid) b rest (by rw [heq, List.cons_append]) ?_
    rwa [List.append_assoc, List.singleton_append] at hall
  · rintro ⟨ha, h⟩ mid b rest heq hall
    cases mid with
    | nil =>
        cases heq
        exact ha
    | cons c mid =>
        rw [List.cons_append] at heq
        obtain ⟨rfl, hrest⟩ := List.cons.inj heq
        have hall' : l.AllPass (front ++ [a] ++ mid) := by
          rwa [List.append_assoc, List.singleton_append]
        exact h (allPass_snoc.mp hall'.of_append).2 mid b rest hrest hall'

/-- The table knows the names that it has known before, and those of the symbols at `front`. -/
def Behind (l : SymLoop) (front : List (BitVec 32)) (t : Symtab) : Prop :=
  ∀ n, t.Knows n ↔ l.table.Knows n ∨ l.Takes front n

theorem takes_snoc {n : CString} : l.Takes (front ++ [a]) n ↔
    l.Takes front n ∨ (l.sym a).skipped = false ∧ l.name a = some n := by
  unfold Takes
  simp only [List.mem_append, List.mem_singleton, or_and_right, exists_or, exists_eq_left]

theorem Behind.skip (h : l.Behind front t) (hskip : (l.sym a).skipped = true) :
    l.Behind (front ++ [a]) t := by
  intro n
  rw [h n, takes_snoc, hskip]
  simp only [Bool.true_eq_false, false_and, or_false]

theorem Behind.take {n : CString} {value : BitVec 32} {m : Bool} (h : l.Behind front t)
    (hskip : (l.sym a).skipped = false) (hname : l.name a = some n)
    (hok : (t.newsym n value m).1 = true) :
    l.Behind (front ++ [a]) (t.newsym n value m).2 := by
  intro n'
  rw [Symtab.knows_newsym hok, h n', takes_snoc, hname, Option.some_inj, or_assoc]
  exact or_congr_right (or_congr_right (and_iff_right hskip).symm)

/-! ### The rounds -/

/-- The loop over some symbols, of which the first one has the number `i`. -/
def add (l : SymLoop) (places : List (BitVec 32)) (i : ℕ) (t : Symtab) : Option Loaded :=
  addSymbols l.mem l.mapped l.strtab l.strSize l.malloc places i t

section Rounds

variable {i : ℕ}

theorem add_unmapped (h : ¬Mapped l.mapped (a + 12) 4) : l.add (a :: places) i t = none :=
  if_pos h

section Info

variable (hinfo : Mapped l.mapped (a + 12) 4)

include hinfo

theorem add_skipped (hskip : (l.sym a).skipped = true) :
    l.add (a :: places) i t = l.add places (i + 1) t :=
  (if_neg (not_not_intro hinfo)).trans (if_pos hskip)

variable (hskip : (l.sym a).skipped = false)

include hskip

theorem add_nameless (h : ¬Mapped l.mapped a 4) : l.add (a :: places) i t = none :=
  ((if_neg (not_not_intro hinfo)).trans (if_neg (ne_true_of_eq_false hskip))).trans (if_pos h)

variable (hmapped : Mapped l.mapped a 4)

include hmapped

theorem add_corrupt (h : (l.sym a).used = true ∧ l.strSize ≤ (l.sym a).stName) :
    l.add (a :: places) i t = some ⟨false, [], t⟩ :=
  (((if_neg (not_not_intro hinfo)).trans (if_neg (ne_true_of_eq_false hskip))).trans
    (if_neg (not_not_intro hmapped))).trans (if_pos h)

variable (hrange : ¬((l.sym a).used = true ∧ l.strSize ≤ (l.sym a).stName))

include hrange

theorem add_named : l.add (a :: places) i t =
    match l.name a with
    | none => none
    | some name =>
      match t.newsym name (l.sym a).stValue (l.malloc i) with
      | (false, t) => some ⟨false, [l.sym a], t⟩
      | (true, t) => (l.add places (i + 1) t).map fun rest =>
          { rest with calls := l.sym a :: rest.calls } :=
  (((if_neg (not_not_intro hinfo)).trans (if_neg (ne_true_of_eq_false hskip))).trans
    (if_neg (not_not_intro hmapped))).trans (if_neg hrange)

theorem add_endless (h : l.name a = none) : l.add (a :: places) i t = none := by
  rw [add_named hinfo hskip hmapped hrange, h]

variable {n : CString} (hname : l.name a = some n)

include hname

theorem add_refused (h : t.newsym n (l.sym a).stValue (l.malloc i) = (false, t')) :
    l.add (a :: places) i t = some ⟨false, [l.sym a], t'⟩ := by
  rw [add_named hinfo hskip hmapped hrange, hname]
  dsimp only
  rw [h]

theorem add_added (h : t.newsym n (l.sym a).stValue (l.malloc i) = (true, t')) :
    l.add (a :: places) i t = (l.add places (i + 1) t').map fun rest =>
      { rest with calls := l.sym a :: rest.calls } := by
  rw [add_named hinfo hskip hmapped hrange, hname]
  dsimp only
  rw [h]

end Info

end Rounds

/-- The loop comes back, and has called `newsym` only as it should. -/
def Good (strSize : BitVec 32) (out : Option Loaded) : Prop :=
  ∃ loaded, out = some loaded ∧ Checked strSize loaded.calls

theorem not_good_none {strSize : BitVec 32} : ¬Good strSize none := nofun

theorem good_some {strSize : BitVec 32} {loaded : Loaded} :
    Good strSize (some loaded) ↔ Checked strSize loaded.calls := by
  constructor
  · rintro ⟨loaded, h, hchecked⟩
    cases h
    exact hchecked
  · exact fun h => ⟨loaded, rfl, h⟩

theorem good_map {strSize : BitVec 32} {sym : ElfSym} {out : Option Loaded} :
    Good strSize (out.map fun rest => { rest with calls := sym :: rest.calls }) ↔
      (sym.used = true ∧ sym.stName < strSize) ∧ Good strSize out := by
  cases out with
  | none => exact iff_of_false not_good_none fun h => not_good_none h.2
  | some loaded =>
      rw [Option.map_some, good_some, good_some]
      exact List.forall_mem_cons

/-- A symbol from which the loop does not go on. -/
theorem and_passes_imp {p : Prop} (h : ¬l.Passes front a) :
    l.Fine a ∧ (l.Passes front a → p) ↔ l.Fine a :=
  and_iff_left fun hpasses => absurd hpasses h

theorem good_add (hfront : l.AllPass front) (ht : l.Behind front t) :
    Good l.strSize (l.add places front.length t) ↔ l.CleanBehind front places := by
  induction places generalizing front t with
  | nil => exact iff_of_true ⟨_, rfl, nofun⟩ cleanBehind_nil
  | cons a places ih =>
      rw [cleanBehind_cons hfront]
      by_cases hinfo : Mapped l.mapped (a + 12) 4
      swap
      · rw [add_unmapped hinfo]
        exact iff_of_false not_good_none fun h => hinfo h.1.info
      cases hskip : (l.sym a).skipped with
      | true =>
          have hpasses : l.Passes front a := Or.inl hskip
          have hfine : l.Fine a := by
            refine ⟨hinfo, fun h => ?_, fun h => ?_⟩ <;> rw [hskip] at h <;> cases h
          have hnext := ih (allPass_snoc.mpr ⟨hfront, hpasses⟩) (ht.skip hskip)
          rw [List.length_append, List.length_singleton] at hnext
          rw [add_skipped hinfo hskip, hnext, and_iff_right hfine]
          exact (imp_iff_right hpasses).symm
      | false =>
          by_cases hmapped : Mapped l.mapped a 4
          swap
          · rw [add_nameless hinfo hskip hmapped]
            exact iff_of_false not_good_none fun h => hmapped (h.1.used hskip).1
          by_cases hcorrupt : (l.sym a).used = true ∧ l.strSize ≤ (l.sym a).stName
          · have hstop : ¬l.Passes front a := by
              rintro (h | ⟨h, -⟩)
              · rw [hskip] at h
                cases h
              · exact BitVec.not_le.mpr (h hcorrupt.1) hcorrupt.2
            rw [add_corrupt hinfo hskip hmapped hcorrupt, good_some, and_passes_imp hstop]
            refine iff_of_true nofun ⟨hinfo, fun _ => ⟨hmapped, hcorrupt.1⟩, fun _ hlt => ?_⟩
            exact absurd hcorrupt.2 (BitVec.not_le.mpr hlt)
          have hlt : (l.sym a).used = true → (l.sym a).stName < l.strSize := fun hused =>
            BitVec.not_le.mp fun hle => hcorrupt ⟨hused, hle⟩
          cases hname : l.name a with
          | none =>
              rw [add_endless hinfo hskip hmapped hcorrupt hname]
              refine iff_of_false not_good_none fun h => ?_
              have hend := h.1.name hskip (hlt (h.1.used hskip).2)
              rw [hname] at hend
              cases hend
          | some n =>
              have hfine : l.Fine a ↔ (l.sym a).used = true ∧ (l.sym a).stName < l.strSize := by
                constructor
                · exact fun h => ⟨(h.used hskip).2, hlt (h.used hskip).2⟩
                · exact fun h => ⟨hinfo, fun _ => ⟨hmapped, h.1⟩, fun _ _ => by rw [hname]; rfl⟩
              have hnew := @Symtab.newsym_fst t n (l.sym a).stValue (l.malloc front.length)
              obtain ⟨ok, t', heq⟩ : ∃ ok t', t.newsym n (l.sym a).stValue
                (l.malloc front.length) = (ok, t') := ⟨_, _, rfl⟩
              rw [ht n] at hnew
              cases ok with
              | false =>
                  have hstop : ¬l.Passes front a := by
                    rintro (h | ⟨-, n', hn', hok⟩)
                    · rw [hskip] at h
                      cases h
                    · rw [hname] at hn'
                      cases hn'
                      rw [heq] at hnew
                      cases hnew.mpr hok
                  rw [add_refused hinfo hskip hmapped hcorrupt hname heq, good_some,
                    and_passes_imp hstop, hfine]
                  exact List.forall_mem_singleton
              | true =>
                  have hok : (t.newsym n (l.sym a).stValue (l.malloc front.length)).1 = true := by
                    rw [heq]
                  have hpasses : l.Passes front a := Or.inr ⟨hlt, n, hname, hnew.mp hok⟩
                  have hbehind := ht.take hskip hname hok
                  rw [heq] at hbehind
                  have hnext := ih (allPass_snoc.mpr ⟨hfront, hpasses⟩) hbehind
                  rw [List.length_append, List.length_singleton] at hnext
                  rw [add_added hinfo hskip hmapped hcorrupt hname heq, good_map, hnext, hfine,
                    imp_iff_right hpasses]

theorem good_iff : Good l.strSize (l.add places 0 l.table) ↔ l.Clean places :=
  good_add allPass_nil fun _ => (or_iff_left fun ⟨_, h, _⟩ => nomatch h).symm

end SymLoop

/-! ## `elfreadsyms` -/

namespace SymCallState

variable (c : SymCallState) (sh : ℕ)

/-- The call ends, without a division by zero, and without the flag for the debugger `newsym` is
called for globals and functions only, whose names begin in the table of the strings. -/
structure Total : Prop where
  ends : ∃ rounds out, c.elfreadsyms rounds = some out
  divides : ∀ rounds, c.elfreadsyms rounds ≠ some .divisionByZero
  calls : c.kflag = false → ∀ rounds loaded, c.elfreadsyms rounds = some (.returns loaded) →
    ∀ sh, findSymtab c.eh.eShnum.toNat c.shtab = some sh →
      Checked (c.shtab (c.shtab sh).shLink.toNat).shSize loaded.calls

/-- The tables of the file. -/
def things : Things Table (Fin (2 ^ 32)) Memory :=
  (c.tables sh).things c.file c.mapped (c.start sh).name (c.start sh).size

def offsets : Table → Fin (2 ^ 32) := (c.start sh).places (c.tables sh)

/-- The memory with the tables, put there in the order of their offsets. -/
def filled : Memory :=
  (c.things sh).takeAll (c.offsets sh) ((c.things sh).order (c.offsets sh)) c.loader.mem

/-- The loop over the symbols in the memory with the tables. -/
def symLoop : SymLoop where
  mem := c.filled sh
  mapped := c.mapped
  strtab := (c.tables sh).strtab
  strSize := (c.shtab (c.shtab sh).shLink.toNat).shSize
  malloc := c.malloc
  table := c.table

/-- The table of the symbols has entries, the headers are there, the offsets of the tables are such
that the loop over them ends, and if all tables can be taken, then there is memory for the debugger,
or the symbols are fine as far as the loop over them comes. -/
structure Fits : Prop where
  entsize : (c.shtab sh).shEntsize ≠ 0
  headers : c.HeadersInMemory sh
  ends : (c.things sh).Ends (c.offsets sh)
  debugger : c.kflag = true → (c.things sh).Taken (c.offsets sh) → c.DebuggerMapped
  clean : c.kflag = false → (c.things sh).Taken (c.offsets sh) →
    (c.symLoop sh).Clean (c.symbols sh)

/-- There is memory for the headers that are copied for the debugger, and the table of the symbols,
if there is one, fits. -/
structure WellFormed : Prop where
  copy : c.kflag = true → c.CopyMapped
  fits : ∀ sh, findSymtab c.eh.eShnum.toNat c.shtab = some sh → c.Fits sh

variable {c} {sh} {rounds : ℕ} {r : Reading}

/-- The loop over the tables ends with all of them read if and only if they can be. -/
theorem taken_iff {x : Bool × Reading}
    (hrun : run (tableRound c.file c.mapped (c.tables sh)) rounds (c.start sh) = some x) :
    x.1 = true ↔ (c.things sh).Taken (c.offsets sh) := by
  obtain ⟨ok, r⟩ := x
  cases ok with
  | false => exact iff_of_false nofun (not_taken_of_run hrun)
  | true => exact iff_of_true rfl (leads_of_run hrun).taken

theorem addAll_eq
    (hrun : run (tableRound c.file c.mapped (c.tables sh)) rounds (c.start sh) = some (true, r)) :
    c.addAll sh r = (c.symLoop sh).add (c.symbols sh) 0 (c.symLoop sh).table := by
  have hmem : r.loader.mem = c.filled sh := (leads_of_run hrun).mem.symm
  have hfields := Reading.Fields.run ⟨rfl, rfl⟩ hrun
  unfold addAll
  rw [hmem, hfields.2]
  rfl

/-- What the call comes to, without a fault before the loop over the tables. -/
theorem elfreadsyms_eq (hcopy : c.kflag = true → c.CopyMapped)
    (hfind : findSymtab c.eh.eShnum.toNat c.shtab = some sh)
    (hentsize : (c.shtab sh).shEntsize ≠ 0) (hheaders : c.HeadersInMemory sh) :
    c.elfreadsyms rounds =
      (run (tableRound c.file c.mapped (c.tables sh)) rounds (c.start sh)).bind (c.finish sh) := by
  unfold elfreadsyms
  rw [if_neg fun h => h.2 (hcopy h.1), hfind]
  exact (if_neg hentsize).trans (if_neg (not_not_intro hheaders))

theorem finish_ne_divisionByZero {x : Bool × Reading} : c.finish sh x ≠ some .divisionByZero := by
  unfold finish
  intro h
  split at h
  · cases h
  · split at h
    · obtain ⟨loaded, -, hloaded⟩ := Option.map_eq_some_iff.mp h
      cases hloaded
    · split at h <;> cases h

/-- The call comes back behind the loop over the tables, and has called `newsym` as it should. -/
theorem finish_iff {x : Bool × Reading}
    (hrun : run (tableRound c.file c.mapped (c.tables sh)) rounds (c.start sh) = some x) :
    ((∃ out, c.finish sh x = some out) ∧
      (c.kflag = false → ∀ loaded, c.finish sh x = some (.returns loaded) →
        Checked (c.shtab (c.shtab sh).shLink.toNat).shSize loaded.calls)) ↔
    (c.kflag = true → (c.things sh).Taken (c.offsets sh) → c.DebuggerMapped) ∧
      (c.kflag = false → (c.things sh).Taken (c.offsets sh) →
        (c.symLoop sh).Clean (c.symbols sh)) := by
  have htaken := taken_iff hrun
  obtain ⟨ok, r⟩ := x
  cases ok with
  | false =>
      have hno : ¬(c.things sh).Taken (c.offsets sh) := fun h => nomatch htaken.mpr h
      refine iff_of_true ⟨⟨_, rfl⟩, fun _ loaded h => ?_⟩
        ⟨fun _ h => absurd h hno, fun _ h => absurd h hno⟩
      cases h
      exact nofun
  | true =>
      have hall : (c.things sh).Taken (c.offsets sh) := htaken.mp rfl
      cases hkflag : c.kflag with
      | true =>
          have hfinish : c.finish sh (true, r) =
              if c.DebuggerMapped then some (.returns ⟨true, [], c.table⟩) else none := by
            unfold finish
            rw [hkflag]
            rfl
          rw [hfinish]
          by_cases hmapped : c.DebuggerMapped
          · rw [if_pos hmapped]
            exact iff_of_true ⟨⟨_, rfl⟩, nofun⟩ ⟨fun _ _ => hmapped, nofun⟩
          · rw [if_neg hmapped]
            exact iff_of_false (fun h => nomatch h.1) fun h => hmapped (h.1 rfl hall)
      | false =>
          have hfinish : c.finish sh (true, r) = (c.addAll sh r).map .returns := by
            unfold finish
            rw [hkflag]
            rfl
          rw [hfinish, addAll_eq hrun]
          refine Iff.trans ?_ ((@SymLoop.good_iff (c.symLoop sh) (c.symbols sh)).trans ?_)
          · constructor
            · rintro ⟨⟨out, hout⟩, hchecked⟩
              obtain ⟨loaded, hloaded, -⟩ := Option.map_eq_some_iff.mp hout
              exact ⟨loaded, hloaded, hchecked rfl loaded (by rw [hloaded, Option.map_some])⟩
            · rintro ⟨loaded, hloaded, hchecked⟩
              rw [hloaded]
              refine ⟨⟨_, rfl⟩, fun _ loaded' h => ?_⟩
              cases h
              exact hchecked
          · exact ⟨fun h => ⟨nofun, fun _ _ => h⟩, fun h => h.2 rfl hall⟩

/-- A file with one symbol behind the local ones, a weak object. -/
def weakFile : ElfFile where
  content k := ([1, 0, 0, 0, 0x10, 0, 0x20, 0x80, 4, 0, 0, 0, 0x21, 0, 1, 0] : List (BitVec 8)).getD
    (k - 0x110) 0
  lseek _ := true
  read _ size := size.toInt

/-- The sections of the symbols (with this size for an entry), of their names, and of the names of
the sections. -/
def weakSections (entsize : BitVec 32) : ℕ → Shdr
  | 1 => ⟨1, SHT_SYMTAB, 0x100, 32, 2, 1, entsize⟩
  | 2 => ⟨9, 3, 0x200, 8, 0, 0, 0⟩
  | 3 => ⟨17, 3, 0x300, 32, 0, 0, 0⟩
  | _ => ⟨0, 0, 0, 0, 0, 0, 0⟩

/-- The file, behind a program that has been loaded up to this address. -/
def weakCall (entsize : BitVec 32) (shstrndx : BitVec 16) (dlMaxaddr : BitVec 32) :
    SymCallState where
  file := weakFile
  kflag := false
  eh := ⟨4, shstrndx⟩
  shtab := weakSections entsize
  loader := ⟨fun _ => 0, 0x80200000, dlMaxaddr, 0⟩
  tablebase := 0x81000000
  malloc _ := true
  table := .init
  mapped a := decide (0x80000000 ≤ a ∧ a < 0x82000000)
  inMemory i := decide (i < 4)

def callsOf : Option SymResult → List ElfSym
  | some (.returns loaded) => loaded.calls
  | _ => []

/-- The call does not end where the names of the symbols and those of the sections are in one
section. -/
theorem not_ends_merged : ¬((weakCall 16 2 0x80200100).things 1).Ends
    ((weakCall 16 2 0x80200100).offsets 1) := by
  rintro (h | ⟨t, h | h⟩)
  · exact absurd (h.apart .names .strings (by decide) rfl) (by decide)
  · cases t with
    | names => exact absurd h.fails (by decide)
    | syms => exact absurd h.fails (by decide)
    | strings => exact absurd h.fails (by decide)
  · cases t with
    | names => exact absurd (h.behind .syms (by decide)).1 (by decide)
    | syms => exact absurd (h.behind .names (by decide)).1 (by decide)
    | strings => exact absurd (h.behind .syms (by decide)).1 (by decide)

/-- Nor does it where the tables do not fit between the program and the end of the memory: they are
put to the address 0. -/
theorem not_ends_full : ¬((weakCall 16 3 0x81000000).things 1).Ends
    ((weakCall 16 3 0x81000000).offsets 1) := by
  have hfirst : First ((weakCall 16 3 0x81000000).offsets 1) .syms := by
    intro u hu
    cases u with
    | names => decide
    | syms => exact absurd rfl hu
    | strings => decide
  exact Things.not_ends_of_none hfirst (by decide)

theorem not_total_of_not_ends {c : SymCallState} {sh : ℕ}
    (hfind : findSymtab c.eh.eShnum.toNat c.shtab = some sh)
    (hentsize : (c.shtab sh).shEntsize ≠ 0) (hheaders : c.HeadersInMemory sh)
    (hkflag : c.kflag = false) (hends : ¬(c.things sh).Ends (c.offsets sh)) : ¬c.Total := by
  intro h
  have hcopy : c.kflag = true → c.CopyMapped := by
    rw [hkflag]
    nofun
  obtain ⟨rounds, out, hout⟩ := h.ends
  rw [elfreadsyms_eq hcopy hfind hentsize hheaders] at hout
  obtain ⟨x, hrun, -⟩ := Option.bind_eq_some_iff.mp hout
  exact hends (tables_end_iff.mp ⟨rounds, x, hrun⟩)

end SymCallState

end Elf

end LuojiOs
