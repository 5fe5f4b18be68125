import LuojiOs.Env.Nvram
import LuojiOs.Support.Buckets
import Mathlib.Data.Set.Card

/-!
# The symbol table

The functions of `loadelf.c` over the table `symhash` of the symbols that are known.  What `malloc`
returns for a new symbol is part of a call.  The arrays `symsort`, which nothing fills, are left
out.
-/

namespace LuojiOs

namespace Elf

open Buckets

def NHASH : ℕ := 127

/-- `struct Sym`, without the pointer to the next one in the chain. -/
structure Sym where
  value : BitVec 32
  name : CString
  deriving DecidableEq

/-- The static variables. -/
structure Symtab where
  symhash : Fin NHASH → List Sym
  maxsymlen : ℕ
  nsyms : ℕ

/-- One round of the loop of `strhash`.  A character is signed. -/
def hashStep (h : BitVec 32) (c : BitVec 8) : BitVec 32 :=
  let h := (h <<< 4) + c.signExtend 32
  if h.toNat > 0x0fffffff then (h ^^^ ((h >>> 24) &&& 0xf0)) &&& 0x0fffffff else h

def strhash (s : CString) : BitVec 32 := s.foldl hashStep 0

/-- `strhash (name) % NHASH` -/
def bucketOf (name : CString) : Fin NHASH :=
  ⟨(strhash name).toNat % NHASH, Nat.mod_lt _ (by decide)⟩

namespace Symtab

def init : Symtab := ⟨fun _ => [], 0, 0⟩

/-- The first characters are compared, and then the rest of the names. -/
def sameName (name : CString) (sym : Sym) : Bool :=
  name.head? = sym.name.head? && decide (sym.name.tail = name.tail)

def clrsyms (_ : Symtab) : Symtab := ⟨fun _ => [], 0, 0⟩

variable (t : Symtab)

def getsymbyname (name : CString) : Option Sym :=
  if t.nsyms = 0 then none else (t.symhash (bucketOf name)).find? (sameName name)

/-- `newsym`: what is returned, and the table; `mem` tells whether there is memory for a new
symbol. -/
def newsym (name : CString) (value : BitVec 32) (mem : Bool) : Bool × Symtab :=
  let h := bucketOf name
  if (t.symhash h).any (sameName name) then
    (true, { t with symhash := Function.update t.symhash h ((t.symhash h).lookmap fun sym =>
      if sameName name sym then some { sym with value := value } else none) })
  else if mem then
    (true, {
      symhash := Function.update t.symhash h (⟨value, name⟩ :: t.symhash h)
      maxsymlen := if t.maxsymlen < name.length then name.length else t.maxsymlen
      nsyms := t.nsyms + 1 })
  else (false, t)

/-- `defsym`, with what `newsym` returns if it is called. -/
def defsym (name : CString) (value : BitVec 32) (mem : Bool) : Bool × Symtab :=
  match t.getsymbyname name with
  | some _ => (false, t)
  | none => t.newsym name value mem

end Symtab

/-- A call, with what `malloc` returns in it. -/
inductive SymCall
  | newsym (name : CString) (value : BitVec 32) (mem : Bool)
  | defsym (name : CString) (value : BitVec 32) (mem : Bool)
  | clrsyms
  deriving DecidableEq

namespace SymCall

def step (t : Symtab) : SymCall → Bool × Symtab
  | newsym name value mem => t.newsym name value mem
  | defsym name value mem => t.defsym name value mem
  | clrsyms => (true, t.clrsyms)

/-- The names are not empty. -/
def Named : SymCall → Prop
  | newsym name _ _ => name ≠ []
  | defsym name _ _ => name ≠ []
  | clrsyms => True

instance : DecidablePred Named
  | newsym name _ _ => inferInstanceAs (Decidable (name ≠ []))
  | defsym name _ _ => inferInstanceAs (Decidable (name ≠ []))
  | clrsyms => .isTrue trivial

end SymCall

/-- The calls so far with their results, the last one first, and the table behind them. -/
structure SymRun where
  past : List (SymCall × Bool)
  table : Symtab

namespace SymRun

def init : SymRun := ⟨[], .init⟩

def step (r : SymRun) (call : SymCall) : SymRun :=
  ⟨(call, (call.step r.table).1) :: r.past, (call.step r.table).2⟩

def run (calls : List SymCall) : SymRun := calls.foldl step init

end SymRun

/-- The value that a name should have: that of the last successful `newsym`.  `defsym` gives a
value only to a name without one. -/
def lastValue (past : List (SymCall × Bool)) (n : CString) : Option (BitVec 32) :=
  match past with
  | [] => none
  | (.newsym name value _, ret) :: past =>
    if ret ∧ name = n then some value else lastValue past n
  | (.defsym name value _, ret) :: past =>
    if ret ∧ name = n ∧ lastValue past n = none then some value else lastValue past n
  | (.clrsyms, _) :: _ => none

variable {t : Symtab} {past : List (SymCall × Bool)} {name n : CString} {value : BitVec 32}
  {mem : Bool} {sym : Sym}

/-! ## The functions as operations of a hash table -/

theorem sameName_eq (hn : name ≠ []) : Symtab.sameName name sym = decide (sym.name = name) := by
  obtain ⟨c, s, rfl⟩ := List.exists_cons_of_ne_nil hn
  unfold Symtab.sameName
  cases hsym : sym.name with
  | nil => rfl
  | cons d u =>
      by_cases hd : c = d
      · simp [hd]
      · have hne : ¬d = c := Ne.symm hd
        simp [hd, hne]

/-- The entry of a name. -/
def entry (t : Symtab) (n : CString) : Option Sym := find Sym.name bucketOf t.symhash n

def withValue (value : BitVec 32) (sym : Sym) : Sym := { sym with value := value }

theorem find?_sameName (hn : name ≠ []) {l : List Sym} :
    l.find? (Symtab.sameName name) = l.find? fun sym => sym.name = name :=
  congrArg (List.find? · l) (funext fun _ => sameName_eq hn)

theorem any_sameName (hn : name ≠ []) :
    (t.symhash (bucketOf name)).any (Symtab.sameName name) = (entry t name).isSome := by
  unfold entry find
  rw [← find?_sameName hn, List.isSome_find?]

/-- A name that is there gets the new value. -/
theorem newsym_found (hn : name ≠ []) (hentry : entry t name = some sym) :
    t.newsym name value mem =
      (true, { t with symhash := change Sym.name bucketOf (withValue value) t.symhash name }) := by
  have hany : (t.symhash (bucketOf name)).any (Symtab.sameName name) = true := by
    rw [any_sameName hn, hentry]
    rfl
  have hchange : (fun sym => if Symtab.sameName name sym then some { sym with value := value }
      else none) = changeOf Sym.name (withValue value) name := by
    funext sym
    rw [sameName_eq hn]
    unfold changeOf
    by_cases hsym : sym.name = name
    · rw [if_pos hsym, if_pos (decide_eq_true hsym)]
      rfl
    · rw [if_neg hsym, if_neg (by simpa using hsym)]
  unfold Symtab.newsym
  dsimp only
  rw [if_pos hany, hchange]
  rfl

theorem newsym_missing (hn : name ≠ []) (hentry : entry t name = none) :
    ¬(t.symhash (bucketOf name)).any (Symtab.sameName name) = true := by
  rw [any_sameName hn, hentry]
  exact Bool.false_ne_true

/-- Another name is put in front of its chain. -/
theorem newsym_added (hn : name ≠ []) (hentry : entry t name = none) :
    t.newsym name value true = (true, {
      symhash := put Sym.name bucketOf t.symhash ⟨value, name⟩
      maxsymlen := max t.maxsymlen name.length
      nsyms := t.nsyms + 1 }) := by
  have hmax : (if t.maxsymlen < name.length then name.length else t.maxsymlen) =
      max t.maxsymlen name.length := by
    split <;> omega
  unfold Symtab.newsym
  dsimp only
  rw [if_neg (newsym_missing hn hentry), if_pos rfl, hmax]
  rfl

theorem newsym_refused (hn : name ≠ []) (hentry : entry t name = none) :
    t.newsym name value false = (false, t) :=
  (if_neg (newsym_missing hn hentry)).trans (if_neg Bool.false_ne_true)

/-! ## The invariant -/

/-- The table holds the values that the names should have. -/
structure Holds (t : Symtab) (past : List (SymCall × Bool)) : Prop where
  proper : Proper Sym.name bucketOf t.symhash
  lookup : ∀ n, (entry t n).map Sym.value = lastValue past n
  count : t.nsyms = size t.symhash
  bound : ∀ n, (entry t n).isSome = true → n.length ≤ t.maxsymlen
  attained : t.maxsymlen = 0 ∨ ∃ n, (entry t n).isSome = true ∧ n.length = t.maxsymlen

theorem Holds.isSome (h : Holds t past) (n : CString) :
    (entry t n).isSome = (lastValue past n).isSome := by
  rw [← h.lookup, Option.isSome_map]

theorem Holds.getsymbyname (h : Holds t past) (hn : n ≠ []) : t.getsymbyname n = entry t n := by
  unfold Symtab.getsymbyname
  split
  · next hzero =>
    have hempty : t.symhash (bucketOf n) = [] := by
      have hsum := h.count.symm.trans hzero
      unfold size at hsum
      exact List.length_eq_zero_iff.mp
        (Finset.sum_eq_zero_iff.mp hsum (bucketOf n) (Finset.mem_univ _))
    unfold entry find
    rw [hempty]
    rfl
  · exact find?_sameName hn

theorem holds_init : Holds .init [] where
  proper := ⟨fun _ _ hsym => absurd hsym List.not_mem_nil, fun _ => List.nodup_nil⟩
  lookup _ := rfl
  count := by
    unfold size
    exact (Finset.sum_eq_zero fun _ _ => rfl).symm
  bound _ h := by cases h
  attained := Or.inl rfl

theorem entry_change (t : Symtab) (name n : CString) (value : BitVec 32) :
    find Sym.name bucketOf (change Sym.name bucketOf (withValue value) t.symhash name) n =
      if n = name then (entry t name).map (withValue value) else entry t n :=
  find_change fun _ => rfl

/-- A value is given to a name that is there. -/
theorem Holds.change (h : Holds t past) (hentry : entry t name = some sym)
    {past' : List (SymCall × Bool)}
    (hpast : ∀ n, lastValue past' n = if name = n then some value else lastValue past n) :
    Holds { t with symhash := change Sym.name bucketOf (withValue value) t.symhash name }
      past' := by
  have hsome (n : CString) :
      (find Sym.name bucketOf (Buckets.change Sym.name bucketOf (withValue value) t.symhash name)
        n).isSome = (entry t n).isSome := by
    rw [entry_change]
    split
    · next heq => rw [heq, Option.isSome_map]
    · rfl
  refine ⟨h.proper.change fun _ => rfl, fun n => ?_, ?_, fun n hsym => ?_, ?_⟩
  · rw [hpast]
    refine (congrArg _ (entry_change t name n value)).trans ?_
    by_cases heq : n = name
    · rw [if_pos heq, if_pos heq.symm, hentry]
      rfl
    · rw [if_neg heq, if_neg (Ne.symm heq)]
      exact h.lookup n
  · exact h.count.trans size_change.symm
  · exact h.bound n ((hsome n).symm.trans hsym)
  · exact h.attained.imp id fun ⟨n, hn, hlen⟩ => ⟨n, (hsome n).trans hn, hlen⟩

/-- A name is added. -/
theorem Holds.put (h : Holds t past) (hn : name ≠ []) (hentry : entry t name = none)
    {past' : List (SymCall × Bool)}
    (hpast : ∀ n, lastValue past' n = if name = n then some value else lastValue past n) :
    Holds {
      symhash := put Sym.name bucketOf t.symhash ⟨value, name⟩
      maxsymlen := max t.maxsymlen name.length
      nsyms := t.nsyms + 1 } past' := by
  have hput (n : CString) :
      find Sym.name bucketOf (Buckets.put Sym.name bucketOf t.symhash ⟨value, name⟩) n =
        if n = name then some ⟨value, name⟩ else entry t n := find_put
  refine ⟨h.proper.put hentry, fun n => ?_, ?_, fun n hsym => ?_, Or.inr ?_⟩
  · rw [hpast]
    refine (congrArg _ (hput n)).trans ?_
    by_cases heq : n = name
    · rw [if_pos heq, if_pos heq.symm]
      rfl
    · rw [if_neg heq, if_neg (Ne.symm heq)]
      exact h.lookup n
  · exact (congrArg (· + 1) h.count).trans size_put.symm
  · have hsym' := (congrArg Option.isSome (hput n)).symm.trans hsym
    by_cases heq : n = name
    · rw [heq]
      exact Nat.le_max_right _ _
    · rw [if_neg heq] at hsym'
      exact (h.bound n hsym').trans (Nat.le_max_left _ _)
  · rcases Nat.le_total t.maxsymlen name.length with hle | hle
    · refine ⟨name, ?_, (Nat.max_eq_right hle).symm⟩
      refine (congrArg Option.isSome (hput name)).trans ?_
      rw [if_pos rfl]
      rfl
    · rcases h.attained with hzero | ⟨n, hn', hlen⟩
      · have hpos := List.length_pos_iff.mpr hn
        omega
      · refine ⟨n, ?_, hlen.trans (Nat.max_eq_left hle).symm⟩
        refine (congrArg Option.isSome (hput n)).trans ?_
        split
        · rfl
        · exact hn'

/-- `newsym` gives the value to the name if it succeeds. -/
theorem Holds.newsym (h : Holds t past) (hn : name ≠ []) (past' : Bool → List (SymCall × Bool))
    (hpast : ∀ n, lastValue (past' true) n = if name = n then some value else lastValue past n)
    (hpast' : ∀ n, lastValue (past' false) n = lastValue past n) :
    Holds (t.newsym name value mem).2 (past' (t.newsym name value mem).1) := by
  cases hentry : entry t name with
  | some sym =>
      rw [newsym_found hn hentry]
      exact h.change hentry hpast
  | none =>
      cases mem with
      | false =>
          rw [newsym_refused hn hentry]
          exact ⟨h.proper, fun n => (h.lookup n).trans (hpast' n).symm, h.count, h.bound,
            h.attained⟩
      | true =>
          rw [newsym_added hn hentry]
          exact h.put hn hentry hpast

/-- Each call keeps the invariant. -/
theorem Holds.step (h : Holds t past) {call : SymCall} (hcall : call.Named) :
    Holds (call.step t).2 ((call, (call.step t).1) :: past) := by
  cases call with
  | newsym name value mem =>
      refine h.newsym hcall (fun ret => (.newsym name value mem, ret) :: past) (fun n => ?_)
        fun n => ?_
      · simp [lastValue]
      · simp [lastValue]
  | defsym name value mem =>
      have hname : name ≠ [] := hcall
      have hdef : SymCall.step t (.defsym name value mem) =
          match entry t name with
          | some _ => (false, t)
          | none => t.newsym name value mem := by
        rw [← h.getsymbyname hname]
        rfl
      rw [hdef]
      cases hentry : entry t name with
      | some sym =>
          refine ⟨h.proper, fun n => ?_, h.count, h.bound, h.attained⟩
          rw [h.lookup n]
          simp [lastValue]
      | none =>
          have hnone : lastValue past name = none := by
            rw [← h.lookup, hentry]
            rfl
          refine h.newsym hname (fun ret => (.defsym name value mem, ret) :: past) (fun n => ?_)
            fun n => ?_
          · by_cases heq : name = n
            · subst heq
              simp [lastValue, hnone]
            · simp [lastValue, heq]
          · simp [lastValue]
  | clrsyms =>
      refine ⟨holds_init.proper, fun n => rfl, holds_init.count, fun n hn => ?_, Or.inl rfl⟩
      cases hn

theorem holds_run {calls : List SymCall} (hcalls : ∀ call ∈ calls, call.Named) :
    Holds (SymRun.run calls).table (SymRun.run calls).past := by
  have hgen : ∀ (calls : List SymCall) (r : SymRun), (∀ call ∈ calls, call.Named) →
      Holds r.table r.past →
      Holds (calls.foldl SymRun.step r).table (calls.foldl SymRun.step r).past := by
    intro calls
    induction calls with
    | nil => exact fun r _ h => h
    | cons call calls ih =>
        intro r hcalls h
        obtain ⟨hcall, hrest⟩ := List.forall_mem_cons.mp hcalls
        exact ih (r.step call) hrest (h.step hcall)
  exact hgen calls .init hcalls holds_init

/-- The symbol table is a finite map: each name has the value that was given to it last, it is in
the chain of its hash, once, and the two counters are right. -/
theorem symtab_run {calls : List SymCall} (hcalls : ∀ call ∈ calls, call.Named) :
    (∀ n ≠ [], (SymRun.run calls).table.getsymbyname n =
        (lastValue (SymRun.run calls).past n).map fun value => ⟨value, n⟩) ∧
      (∀ i, (((SymRun.run calls).table.symhash i).map Sym.name).Nodup ∧
        ∀ sym ∈ (SymRun.run calls).table.symhash i, bucketOf sym.name = i) ∧
      (SymRun.run calls).table.nsyms =
        {n | (lastValue (SymRun.run calls).past n).isSome = true}.ncard ∧
      (∀ n, (lastValue (SymRun.run calls).past n).isSome = true →
        n.length ≤ (SymRun.run calls).table.maxsymlen) ∧
      ((SymRun.run calls).table.maxsymlen = 0 ∨
        ∃ n, (lastValue (SymRun.run calls).past n).isSome = true ∧
          n.length = (SymRun.run calls).table.maxsymlen) := by
  have h := holds_run hcalls
  refine ⟨fun n hn => ?_, fun i => ⟨h.proper.nodup i, h.proper.home i⟩, ?_, fun n hn => ?_, ?_⟩
  · rw [h.getsymbyname hn, ← h.lookup]
    cases hentry : entry (SymRun.run calls).table n with
    | none => rfl
    | some sym =>
        have hname : sym.name = n := by simpa using List.find?_some hentry
        subst hname
        rfl
  · have hset : {n | (lastValue (SymRun.run calls).past n).isSome = true} =
        (keys Sym.name (SymRun.run calls).table.symhash : Set CString) := by
      ext n
      rw [Finset.mem_coe, h.proper.mem_keys]
      exact iff_of_eq (congrArg (· = true) (h.isSome n).symm)
    rw [hset, Set.ncard_coe_finset, h.proper.card_keys, h.count]
  · exact h.bound n ((h.isSome n).trans hn)
  · exact h.attained.imp id fun ⟨n, hn, hlen⟩ => ⟨n, (h.isSome n).symm.trans hn, hlen⟩

/-- Two names, one of them given a second value, and no memory for the other one. -/
def twoNames : List SymCall :=
  [.newsym [0x61] 1 true, .defsym [0x61] 2 true, .newsym [0x62, 0xe4] 3 false,
    .newsym [0x61] 4 false]

theorem symtab_run_twoNames :
    (SymRun.run twoNames).table.getsymbyname [0x61] = some ⟨4, [0x61]⟩ ∧
      (SymRun.run twoNames).table.getsymbyname [0x62, 0xe4] = none := by
  have h := @symtab_run twoNames (by decide)
  exact ⟨(h.1 [0x61] (by decide)).trans (by decide),
    (h.1 [0x62, 0xe4] (by decide)).trans (by decide)⟩

end Elf

end LuojiOs
