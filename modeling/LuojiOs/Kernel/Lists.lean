import LuojiOs.Kernel.Scheduler
import LuojiOs.Support.CircularWalk

/-!
# The lists of `rtdef.h`

The functions `rt_list_*` of `os/thread.c` and the loop `rt_list_for_each_entry_safe` on
any heap of nodes that is partitioned into lists.  A list is told by its head and the
sequence of its members; a node that is on no list is linked to itself, as the head of an
empty list is.
-/

namespace LuojiOs

open CircularList

section Functions

variable {N S : Type*} [DecidableEq N]

def rtListInsertBefore (l n : N) (m : Links N) : Links N := m.insertBefore l n

def rtListInsertAfter (l n : N) (m : Links N) : Links N := m.insertAfter l n

def rtListRemove (n : N) (m : Links N) : Links N := m.remove n

def rtListIsempty (l : N) (m : Links N) : Bool := m.isEmpty l

/-- `rt_list_for_each_entry_safe` with the statement `body`, in at most `fuel` rounds. -/
def rtListForEachEntrySafe (links : S → Links N) (body : N → S → Option S) (head : N)
    (fuel : ℕ) (s : S) : Option S :=
  let pos := (links s).next head
  walkSafe links body head fuel pos ((links s).next pos) s

end Functions

section Lists

variable {N S : Type*} [DecidableEq N] {R : Rings N} {m : Links N} {h l n : N} {ys zs : List N}

/-- The node is on no list, and heads none that has members. -/
def Isolated (R : Rings N) (n : N) : Prop := R.home n = none ∧ R.seq n = []

omit [DecidableEq N] in
theorem Isolated.linked (hn : Isolated R n) (hm : R.Represents m) :
    m.next n = n ∧ m.prev n = n := by
  have hp := hm n hn.1
  rw [hn.2] at hp
  exact hp

omit [DecidableEq N] in
/-- An isolated node can be linked on the list of any other node. -/
theorem Isolated.canLink (hn : Isolated R n) (hh : R.home h = none) (hnl : n ≠ l)
    (hl : l ∈ h :: R.seq h) : R.CanLink h n := by
  refine ⟨hh, hn.1, hn.2, ?_⟩
  rintro rfl
  rw [hn.2] at hl
  exact hnl (List.mem_singleton.mp hl).symm

theorem exists_insertBefore (hm : R.Represents m) (hh : R.home h = none) (hn : Isolated R n)
    (hnl : n ≠ l) (hl : R.seq h ++ [h] = ys ++ l :: zs) :
    ∃ R' : Rings N, R'.Represents (rtListInsertBefore l n m) ∧
      R'.seq h ++ [h] = ys ++ n :: l :: zs ∧ ∀ x ≠ h, R'.seq x = R.seq x := by
  have hmem : l ∈ h :: R.seq h := by
    rw [← (List.perm_append_singleton h (R.seq h)).mem_iff, hl]
    simp
  have ok := hn.canLink hh hnl hmem
  -- the head stays the last node of the ring
  obtain ⟨xs, hxs⟩ : ∃ xs, xs ++ [h] = ys ++ n :: l :: zs := by
    rcases List.eq_nil_or_concat zs with rfl | ⟨zs, c, rfl⟩
    · have hlast := (List.append_inj' hl rfl).2
      exact ⟨ys ++ [n], by rw [List.append_assoc, hlast]; rfl⟩
    · rw [List.concat_eq_append] at hl ⊢
      have hlast : [h] = [c] := by
        rw [← List.cons_append, ← List.append_assoc] at hl
        exact (List.append_inj' hl rfl).2
      exact ⟨ys ++ n :: l :: zs, by rw [hlast]; simp⟩
  have hperm : xs.Perm (n :: R.seq h) := by
    apply (List.perm_append_right_iff [h]).mp
    rw [hxs, List.cons_append, hl]
    exact List.perm_middle
  refine ⟨R.link h n xs ok hperm, hm.insertBefore_at ok hl hxs hperm, ?_, ?_⟩
  · rw [← hxs]
    exact congrArg (· ++ [h]) (Function.update_self ..)
  · intro x hx
    exact Function.update_of_ne hx _ _

theorem exists_insertAfter (hm : R.Represents m) (hh : R.home h = none) (hn : Isolated R n)
    (hnl : n ≠ l) (hl : h :: R.seq h = ys ++ l :: zs) :
    ∃ R' : Rings N, R'.Represents (rtListInsertAfter l n m) ∧
      h :: R'.seq h = ys ++ l :: n :: zs ∧ ∀ x ≠ h, R'.seq x = R.seq x := by
  have hmem : l ∈ h :: R.seq h := by
    rw [hl]
    simp
  have ok := hn.canLink hh hnl hmem
  -- the head stays the first node of the ring
  obtain ⟨xs, hxs⟩ : ∃ xs, h :: xs = ys ++ l :: n :: zs := by
    cases ys with
    | nil => exact ⟨n :: zs, by rw [(List.cons.inj hl).1]; rfl⟩
    | cons y ys => exact ⟨ys ++ l :: n :: zs, by rw [(List.cons.inj hl).1]; rfl⟩
  have hperm : xs.Perm (n :: R.seq h) := by
    apply (List.perm_cons h).mp
    rw [hxs]
    calc ys ++ l :: n :: zs
      _ = (ys ++ [l]) ++ n :: zs := by simp
      List.Perm _ (n :: ((ys ++ [l]) ++ zs)) := List.perm_middle
      _ = n :: h :: R.seq h := by rw [hl]; simp
      List.Perm _ (h :: n :: R.seq h) := List.Perm.swap _ _ _
  refine ⟨R.link h n xs ok hperm, hm.insertAfter_at ok hl hxs hperm, ?_, ?_⟩
  · rw [← hxs]
    exact congrArg (h :: ·) (Function.update_self ..)
  · intro x hx
    exact Function.update_of_ne hx _ _

/-- Linking an isolated node to itself changes no pointer. -/
theorem rtListInsert_self (hm : R.Represents m) (hn : Isolated R n) :
    rtListInsertBefore n n m = m ∧ rtListInsertAfter n n m = m := by
  obtain ⟨hnext, hprev⟩ := hn.linked hm
  constructor
  · apply Links.ext
    · funext x
      by_cases hx : x = n <;> simp [rtListInsertBefore, Links.insertBefore, hnext, hprev, hx]
    · funext x
      by_cases hx : x = n <;> simp [rtListInsertBefore, Links.insertBefore, hprev, hx]
  · apply Links.ext
    · funext x
      by_cases hx : x = n <;> simp [rtListInsertAfter, Links.insertAfter, hnext, hx]
    · funext x
      by_cases hx : x = n <;> simp [rtListInsertAfter, Links.insertAfter, hnext, hprev, hx]

theorem exists_remove (hm : R.Represents m) (hn : R.seq h = ys ++ n :: zs) :
    ∃ R' : Rings N, R'.Represents (rtListRemove n m) ∧ Isolated R' n ∧
      R'.seq h = ys ++ zs ∧ ∀ x ≠ h, R'.seq x = R.seq x := by
  have hhome : R.home n = some h := (R.mem_seq h n).mp (by rw [hn]; simp)
  obtain ⟨hm', hseq, hothers⟩ := hm.remove_member hn
  refine ⟨R.remove n, hm', ⟨?_, ?_⟩, hseq, hothers⟩
  · rw [Rings.home_remove, if_pos rfl]
  · rw [Rings.seq_remove, R.seq_of_home hhome, List.erase_nil]

/-- The operations edit the sequences of the lists, and the loop sees them. -/
theorem rtList_refines (hm : R.Represents m) :
    (∀ h l n ys zs, R.home h = none → Isolated R n → n ≠ l → R.seq h ++ [h] = ys ++ l :: zs →
      ∃ R' : Rings N, R'.Represents (rtListInsertBefore l n m) ∧
        R'.seq h ++ [h] = ys ++ n :: l :: zs ∧ ∀ x ≠ h, R'.seq x = R.seq x) ∧
    (∀ h l n ys zs, R.home h = none → Isolated R n → n ≠ l → h :: R.seq h = ys ++ l :: zs →
      ∃ R' : Rings N, R'.Represents (rtListInsertAfter l n m) ∧
        h :: R'.seq h = ys ++ l :: n :: zs ∧ ∀ x ≠ h, R'.seq x = R.seq x) ∧
    (∀ n, Isolated R n →
      rtListInsertBefore n n m = m ∧ rtListInsertAfter n n m = m ∧ rtListRemove n m = m) ∧
    (∀ h n ys zs, R.seq h = ys ++ n :: zs →
      ∃ R' : Rings N, R'.Represents (rtListRemove n m) ∧ Isolated R' n ∧
        R'.seq h = ys ++ zs ∧ ∀ x ≠ h, R'.seq x = R.seq x) ∧
    (∀ h, R.home h = none → (rtListIsempty h m = true ↔ R.seq h = [])) ∧
    ∀ (links : S → Links N) (body : N → S → Option S) (gone : N → S → Bool),
      TakesOut links body gone → ∀ s, links s = m → ∀ h, R.home h = none →
      ∀ fuel, (R.seq h).length < fuel →
        rtListForEachEntrySafe links body h fuel s = (R.seq h).foldlM (fun s n => body n s) s ∧
        ∀ s', rtListForEachEntrySafe links body h fuel s = some s' →
          ∃ R' : Rings N, R'.Represents (links s') ∧ R'.seq h = kept body gone (R.seq h) s ∧
            ∀ x ≠ h, R'.seq x = R.seq x := by
  refine ⟨?_, ?_, ?_, ?_, ?_, ?_⟩
  · intro h l n ys zs hh hn hnl hl
    exact exists_insertBefore hm hh hn hnl hl
  · intro h l n ys zs hh hn hnl hl
    exact exists_insertAfter hm hh hn hnl hl
  · intro n hn
    obtain ⟨hbefore, hafter⟩ := rtListInsert_self hm hn
    obtain ⟨hnext, hprev⟩ := hn.linked hm
    exact ⟨hbefore, hafter, Links.remove_self hnext hprev⟩
  · intro h n ys zs hn
    exact exists_remove hm hn
  · intro h hh
    exact hm.isEmpty_iff hh
  · rintro links body gone hbody s rfl h hh fuel hfuel
    obtain ⟨hrun, hrings⟩ := walkSafe_eq hbody hm hh (List.nil_append _).symm hfuel
    have hfirst : (links s).next h = (R.seq h).headD h := hm.next_root hh
    unfold rtListForEachEntrySafe
    rw [hfirst, hrun]
    exact ⟨rfl, hrings⟩

/-- The list of 0 has the members 1 and 2, and 3 is on no list. -/
def twoRings : Rings (Fin 4) where
  seq h := if h = 0 then [1, 2] else []
  home n := if n = 1 ∨ n = 2 then some 0 else none
  nodup := by decide
  mem_seq := by decide
  root := by decide

def twoLinks : Links (Fin 4) where
  next n := if n = 0 then 1 else if n = 1 then 2 else if n = 2 then 0 else n
  prev n := if n = 0 then 2 else if n = 1 then 0 else if n = 2 then 1 else n

theorem represents_twoRings : twoRings.Represents twoLinks := by
  intro h hh
  match h with
  | 0 => exact ⟨⟨rfl, rfl⟩, ⟨rfl, rfl⟩, rfl, rfl⟩
  | 1 => cases hh
  | 2 => cases hh
  | 3 => exact ⟨rfl, rfl⟩

/-- The loop that takes each entry off the list. -/
theorem takesOut_rtListRemove :
    TakesOut id (fun n m => some (rtListRemove n m)) fun (_ : Fin 4) _ => true :=
  fun _ _ _ h => (Option.some.inj h).symm

/-- 3 is put in front of 2, 1 is removed, and the loop takes both members off. -/
theorem rtList_refines_two :
    (∃ R' : Rings (Fin 4), R'.Represents (rtListInsertBefore 2 3 twoLinks) ∧
      R'.seq 0 ++ [0] = [1] ++ [3, 2, 0] ∧ ∀ x ≠ 0, R'.seq x = twoRings.seq x) ∧
    (∃ R' : Rings (Fin 4), R'.Represents (rtListRemove 1 twoLinks) ∧ Isolated R' 1 ∧
      R'.seq 0 = [] ++ [2] ∧ ∀ x ≠ 0, R'.seq x = twoRings.seq x) ∧
    (rtListForEachEntrySafe id (fun n m => some (rtListRemove n m)) 0 3 twoLinks =
        (twoRings.seq 0).foldlM (fun m n => some (rtListRemove n m)) twoLinks ∧
      ∀ m, rtListForEachEntrySafe id (fun n m => some (rtListRemove n m)) 0 3 twoLinks = some m →
        ∃ R' : Rings (Fin 4), R'.Represents m ∧
          R'.seq 0 = kept (fun n m => some (rtListRemove n m)) (fun _ _ => true) (twoRings.seq 0)
            twoLinks ∧
          ∀ x ≠ 0, R'.seq x = twoRings.seq x) := by
  obtain ⟨hbefore, -, -, hremove, -, hloop⟩ :=
    rtList_refines (S := Links (Fin 4)) represents_twoRings
  exact ⟨hbefore 0 2 3 [1] [0] rfl ⟨rfl, rfl⟩ (by decide) rfl, hremove 0 1 [] [2] rfl,
    hloop id _ _ takesOut_rtListRemove twoLinks rfl 0 rfl 3 (by decide)⟩

end Lists

/-! ## The clean-up of the idle thread -/

/-- What the loop of `idle_thread_entry` does to an entry of `rt_thread_dead`. -/
def cleanEntry : TNode → Kernel → Option Kernel
  | .thread t, σ => some (cleanThread t σ)
  | _, _ => none

theorem takesOut_cleanEntry : TakesOut Kernel.tlinks cleanEntry fun _ _ => true := by
  intro n σ σ' hs
  cases n with
  | thread t =>
      obtain rfl := Option.some.inj hs
      rfl
  | _ => cases hs

theorem cleanDeadFrom_eq {fuel : ℕ} {pos n : TNode} {σ : Kernel} :
    cleanDeadFrom fuel pos n σ = walkSafe Kernel.tlinks cleanEntry .dead fuel pos n σ := by
  induction fuel generalizing pos n σ with
  | zero => cases pos <;> rfl
  | succ fuel ih =>
      unfold walkSafe
      cases pos with
      | dead => rfl
      | thread t => exact ih
      | _ => rfl

theorem foldlM_cleanEntry (ts : List Tid) (σ : Kernel) :
    (ts.map TNode.thread).foldlM (fun σ n => cleanEntry n σ) σ =
      some (ts.foldl (fun σ t => cleanThread t σ) σ) := by
  induction ts generalizing σ with
  | nil => rfl
  | cons t ts ih => exact ih (cleanThread t σ)

theorem kept_cleanEntry (ts : List Tid) (σ : Kernel) :
    kept cleanEntry (fun _ _ => true) (ts.map TNode.thread) σ = [] := by
  induction ts generalizing σ with
  | nil => rfl
  | cons t ts ih => exact ih (cleanThread t σ)

/-- The idle thread cleans up every dead thread once, and leaves none on `rt_thread_dead`. -/
theorem idleThreadBody_cleans {σ : Kernel} {R : Rings TNode} {ts : List Tid} {fuel : ℕ}
    (hm : R.Represents σ.tlinks) (hhead : R.home .dead = none)
    (hts : R.seq .dead = ts.map .thread) (hne : ts ≠ []) (hfuel : ts.length < fuel) :
    idleThreadBody fuel σ = some (ts.foldl (fun σ t => cleanThread t σ) σ) ∧
      ∃ R' : Rings TNode, R'.Represents (ts.foldl (fun σ t => cleanThread t σ) σ).tlinks ∧
        R'.seq .dead = [] ∧ ∀ x ≠ .dead, R'.seq x = R.seq x := by
  have hlen : (ts.map TNode.thread).length < fuel := by rwa [List.length_map]
  obtain ⟨hrun, hrings⟩ :=
    walkSafe_eq takesOut_cleanEntry hm hhead (hts.trans (List.nil_append _).symm) hlen
  rw [foldlM_cleanEntry] at hrun hrings
  have hfirst : σ.tlinks.next .dead = (ts.map TNode.thread).headD .dead := by
    rw [hm.next_root hhead, hts]
  have hbusy : σ.tlinks.isEmpty .dead = false := by
    rw [Bool.eq_false_iff, Ne, hm.isEmpty_iff hhead, hts, List.map_eq_nil_iff]
    exact hne
  constructor
  · unfold idleThreadBody
    rw [hbusy, Bool.not_false, if_pos rfl, cleanDeadFrom_eq, hfirst]
    exact hrun
  · obtain ⟨R', hm', hdead, hothers⟩ := hrings _ rfl
    rw [kept_cleanEntry] at hdead
    exact ⟨R', hm', hdead, hothers⟩

end LuojiOs
