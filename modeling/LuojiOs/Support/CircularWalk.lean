import LuojiOs.Support.CircularList

/-!
# Walks along a ring that may take out the visited node

The walk saves the next node before it visits one, so that the visited node may leave the
ring.  It visits the members in their order, each of them once.
-/

namespace CircularList

variable {N S : Type*} [DecidableEq N]

/-- `for (n = pos->next; pos != head; pos = n, n = n->next)` with the visits `body`, on a
state with the pointers `links`, from the node `pos` with `n` saved. -/
def walkSafe (links : S → Links N) (body : N → S → Option S) (head : N) :
    ℕ → N → N → S → Option S
  | 0, _, _, _ => none
  | fuel + 1, pos, n, s =>
    if pos ≠ head then
      (body pos s).bind fun s => walkSafe links body head fuel n ((links s).next n) s
    else some s

/-- A visit takes the visited node off its ring, as `gone` says, or changes no pointer. -/
def TakesOut (links : S → Links N) (body : N → S → Option S) (gone : N → S → Bool) : Prop :=
  ∀ n s s', body n s = some s' → links s' = if gone n s then (links s).remove n else links s

/-- The nodes of a list that are still on the ring after the visits. -/
def kept (body : N → S → Option S) (gone : N → S → Bool) : List N → S → List N
  | [], _ => []
  | n :: ns, s =>
    let rest := (body n s).elim [] (kept body gone ns)
    if gone n s then rest else n :: rest

variable {links : S → Links N} {body : N → S → Option S} {gone : N → S → Bool}
  {R : Rings N} {s s' : S} {h n : N} {xs ys : List N} {fuel : ℕ}

omit [DecidableEq N] in
theorem Rings.seq_of_home (R : Rings N) (hn : R.home n = some h) : R.seq n = [] := by
  by_contra hne
  rw [R.root n hne] at hn
  cases hn

/-- A member is taken off its ring. -/
theorem Rings.Represents.remove_member {m : Links N} (hm : R.Represents m)
    (hseq : R.seq h = xs ++ n :: ys) :
    (R.remove n).Represents (m.remove n) ∧ (R.remove n).seq h = xs ++ ys ∧
      ∀ x ≠ h, (R.remove n).seq x = R.seq x := by
  have hhome : R.home n = some h := (R.mem_seq h n).mp (by rw [hseq]; simp)
  have hnot : n ∉ xs := by
    have hnodup := R.nodup h
    rw [hseq] at hnodup
    intro hn
    exact (List.nodup_append.mp hnodup).2.2 n hn n List.mem_cons_self rfl
  refine ⟨hm.remove (R.seq_of_home hhome), ?_, ?_⟩
  · rw [Rings.seq_remove, hseq, List.erase_append_right _ hnot, List.erase_cons_head]
  · intro x hx
    apply R.seq_remove_of_home_ne
    rw [hhome]
    exact fun he => hx (Option.some.inj he).symm

/-- One visit: the visited node stays at its place or is taken out. -/
theorem TakesOut.visit (hbody : TakesOut links body gone) (hm : R.Represents (links s))
    (hh : R.home h = none) (hseq : R.seq h = xs ++ n :: ys) (hs : body n s = some s') :
    ∃ R' : Rings N, R'.Represents (links s') ∧ R'.home h = none ∧
      R'.seq h = (if gone n s then xs else xs ++ [n]) ++ ys ∧ ∀ x ≠ h, R'.seq x = R.seq x := by
  have hlinks := hbody n s s' hs
  by_cases hgone : gone n s = true
  · rw [if_pos hgone] at hlinks ⊢
    obtain ⟨hm', hseq', hothers⟩ := hm.remove_member hseq
    refine ⟨R.remove n, ?_, ?_, hseq', hothers⟩
    · rwa [hlinks]
    · rw [Rings.home_remove, hh]
      exact ite_self _
  · rw [if_neg hgone] at hlinks ⊢
    refine ⟨R, ?_, hh, ?_, fun _ _ => rfl⟩
    · rwa [hlinks]
    · rw [hseq, List.append_assoc, List.singleton_append]

/-- The walk from any place of the ring, with the members `ys` before it. -/
theorem walkSafe_eq (hbody : TakesOut links body gone) (hm : R.Represents (links s))
    (hh : R.home h = none) (hseq : R.seq h = xs ++ ys) (hfuel : ys.length < fuel) :
    walkSafe links body h fuel (ys.headD h) ((links s).next (ys.headD h)) s =
        ys.foldlM (fun s n => body n s) s ∧
      ∀ s', ys.foldlM (fun s n => body n s) s = some s' →
        ∃ R' : Rings N, R'.Represents (links s') ∧ R'.seq h = xs ++ kept body gone ys s ∧
          ∀ x ≠ h, R'.seq x = R.seq x := by
  induction ys generalizing R s xs fuel with
  | nil =>
      obtain ⟨fuel, rfl⟩ := Nat.exists_eq_succ_of_ne_zero (Nat.ne_zero_of_lt hfuel)
      constructor
      · unfold walkSafe
        rw [List.headD_nil, if_neg (not_not.mpr rfl)]
        rfl
      · rintro s' ⟨⟩
        exact ⟨R, hm, hseq, fun _ _ => rfl⟩
  | cons n ys ih =>
      obtain ⟨fuel, rfl⟩ := Nat.exists_eq_succ_of_ne_zero (Nat.ne_zero_of_lt hfuel)
      have hnh : n ≠ h := by
        rintro rfl
        exact R.root_notMem hh n (hseq ▸ by simp)
      -- the saved node is the one behind `n`, whatever the visit does
      have hnext : (links s).next n = ys.headD h := by
        have hp := hm h hh
        rw [hseq, Links.path_append] at hp
        cases ys with
        | nil => exact hp.2.1
        | cons y ys => exact hp.2.1.1
      rw [List.headD_cons, List.foldlM_cons]
      unfold walkSafe
      rw [if_pos hnh, hnext]
      cases hs : body n s with
      | none => exact ⟨rfl, nofun⟩
      | some s₁ =>
          obtain ⟨R₁, hm₁, hh₁, hseq₁, hothers⟩ := hbody.visit hm hh hseq hs
          obtain ⟨hrun, hrings⟩ := ih hm₁ hh₁ hseq₁ (Nat.lt_of_succ_lt_succ hfuel)
          refine ⟨hrun, ?_⟩
          intro s' hs'
          obtain ⟨R', hm', hseq', hothers'⟩ := hrings s' hs'
          refine ⟨R', hm', ?_, fun x hx => (hothers' x hx).trans (hothers x hx)⟩
          rw [hseq', kept, hs]
          dsimp only [Option.elim]
          split
          · rfl
          · rw [List.append_assoc, List.singleton_append]

end CircularList
