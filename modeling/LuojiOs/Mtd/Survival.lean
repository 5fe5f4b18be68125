import LuojiOs.Mtd.Devices

/-!
# Partitions that are removed

The list keeps the order of addition as long as no call removes its first or its last entry:
the head is not told of the one, and the hidden tail pointer is not told of the other.
-/

namespace LuojiOs

namespace Mtd

open TailList TailList.Links

namespace Devices

variable {s : Devices} {parts front behind : List Part} {part : Part} {rmp first elm mtd rounds : ℕ}
  {entry : Entry}

/-- The list in memory is the list of the parts. -/
structure Intact (s : Devices) (parts : List Part) : Prop where
  holds : Holds s.links s.lhFirst (parts.map Prod.fst)
  entries : ∀ p entry, s.entries p = some entry ↔ (p, entry) ∈ parts
  count : parts.length ≤ s.mtdidx

/-! ## Pointers of allocated entries -/

/-- The assignments at the end of `add_mtd_device`. -/
theorem append_eq {entry' entry'' : Entry} (hne : rmp ≠ first)
    (hfirst : s.entries first = some entry) (hrmp : s.entries rmp = some entry')
    (htail : s.entries (s.links.prev first) = some entry'') :
    (do
      let s ← s.assignNext (← s.prev first) (some first)
      let s ← s.insertBefore first rmp
      let s ← s.assignNext (← s.prev first) none
      some ((0 : ℤ), s)) = some (0, { s with links := s.links.append first rmp }) := by
  simp [insertBefore, prev, assignNext, assignPrev, hfirst, hrmp, htail, Links.append,
    Links.insertBefore, hne.symm]

theorem remove_eq (hne : s.links.next elm ≠ some elm) {entry' : Entry}
    (helm : s.entries elm = some entry)
    (hprev : s.entries (s.links.prev elm) = some entry')
    (hnext : ∀ p, s.links.next elm = some p → ∃ entry, s.entries p = some entry) :
    s.remove elm = some { s with links := s.links.remove elm } := by
  unfold remove Links.remove
  cases hp : s.links.next elm with
  | none => simp [next, prev, assignNext, helm, hprev, hp]
  | some p =>
      obtain ⟨entry'', hp'⟩ := hnext p hp
      have hne' : elm ≠ p := fun h => hne (hp.trans (congrArg some h.symm))
      simp [next, prev, assignNext, assignPrev, helm, hprev, hp, hp', hne']

/-! ## Traversal -/

theorem traverse_eq {p : ℕ} {ptr : Option ℕ}
    (hentries : ∀ part ∈ parts, s.entries part.1 = some part.2)
    (h : Segment s.links p ptr (parts.map Prod.fst) none) (hrounds : parts.length < rounds) :
    s.traverse rounds ptr = some parts := by
  induction parts generalizing p ptr rounds with
  | nil =>
      obtain ⟨rounds, rfl⟩ : ∃ k, rounds = k + 1 := ⟨rounds - 1, by simp at hrounds; omega⟩
      obtain rfl : ptr = none := h
      rfl
  | cons part parts ih =>
      obtain ⟨rounds, rfl⟩ : ∃ k, rounds = k + 1 := ⟨rounds - 1, by omega⟩
      obtain ⟨rfl, -, hrest⟩ := h
      rw [traverse, hentries part List.mem_cons_self, Option.bind_some,
        ih (fun q hq => hentries q (List.mem_cons_of_mem _ hq)) hrest (Nat.lt_of_succ_lt_succ hrounds)]
      rfl

theorem find_eq {p : ℕ} {ptr : Option ℕ} (hentries : ∀ part ∈ parts, s.entries part.1 = some part.2)
    (h : Segment s.links p ptr (parts.map Prod.fst) none) (hrounds : parts.length < rounds) :
    s.find mtd rounds ptr = some ((parts.find? (·.2.mtd = mtd)).map Prod.fst) := by
  induction parts generalizing p ptr rounds with
  | nil =>
      obtain ⟨rounds, rfl⟩ : ∃ k, rounds = k + 1 := ⟨rounds - 1, by simp at hrounds; omega⟩
      obtain rfl : ptr = none := h
      rfl
  | cons part parts ih =>
      obtain ⟨rounds, rfl⟩ : ∃ k, rounds = k + 1 := ⟨rounds - 1, by omega⟩
      obtain ⟨rfl, -, hrest⟩ := h
      rw [find, hentries part List.mem_cons_self, Option.bind_some]
      by_cases hmtd : part.2.mtd = mtd
      · rw [if_pos hmtd, List.find?_cons_of_pos (by simpa using hmtd)]
        rfl
      · rw [if_neg hmtd, List.find?_cons_of_neg (by simpa using hmtd)]
        exact ih (fun q hq => hentries q (List.mem_cons_of_mem _ hq)) hrest
          (Nat.lt_of_succ_lt_succ hrounds)

/-! ## An intact list -/

theorem Intact.entries_of_mem (h : s.Intact parts) (hpart : part ∈ parts) :
    s.entries part.1 = some part.2 := (h.entries _ _).mpr hpart

theorem Intact.exists_entry (h : s.Intact parts) {p : ℕ} (hp : p ∈ parts.map Prod.fst) :
    ∃ entry, s.entries p = some entry := by
  obtain ⟨part, hpart, rfl⟩ := List.mem_map.mp hp
  exact ⟨part.2, h.entries_of_mem hpart⟩

theorem Intact.segment (h : s.Intact parts) :
    ∃ p, Segment s.links p s.lhFirst (parts.map Prod.fst) none := by
  cases parts with
  | nil => exact ⟨0, h.holds⟩
  | cons part parts => exact ⟨_, h.holds.2⟩

theorem Intact.traverse (h : s.Intact parts) (hrounds : parts.length < rounds) :
    s.traverse rounds s.lhFirst = some parts := by
  obtain ⟨p, hsegment⟩ := h.segment
  exact traverse_eq (fun _ hpart => h.entries_of_mem hpart) hsegment hrounds

theorem Intact.find (h : s.Intact parts) (mtd : ℕ) : s.find mtd (s.mtdidx + 1) s.lhFirst =
    some ((parts.find? (·.2.mtd = mtd)).map Prod.fst) := by
  obtain ⟨p, hsegment⟩ := h.segment
  exact find_eq (fun _ hpart => h.entries_of_mem hpart) hsegment (Nat.lt_succ_of_le h.count)

theorem intact_init : init.Intact [] where
  holds := rfl
  entries p entry := by simp [init]
  count := Nat.le_refl 0

/-! ## Addition -/

theorem Intact.not_mem (h : s.Intact parts) (hfresh : s.entries rmp = none) :
    rmp ∉ parts.map Prod.fst := by
  intro hmem
  obtain ⟨entry, hentry⟩ := h.exists_entry hmem
  cases hfresh.symm.trans hentry

/-- The new memory is not part of the list yet. -/
theorem Intact.holds_allocate (h : s.Intact parts) (hfresh : s.entries rmp = none)
    (entry : Entry) :
    Holds (s.allocate rmp entry).links s.lhFirst (parts.map Prod.fst) := by
  have hout (p : ℕ) (hp : p ∈ parts.map Prod.fst) : p ≠ rmp := fun hprmp =>
    h.not_mem hfresh (hprmp ▸ hp)
  refine h.holds.congr (fun p hp => ?_) fun p hp => ?_
  · simp [allocate, hout p hp]
  · simp [allocate, hout p hp]

theorem Intact.entries_allocate (h : s.Intact parts) (hfresh : s.entries rmp = none)
    (entry : Entry) (p : ℕ) (entry' : Entry) :
    (s.allocate rmp entry).entries p = some entry' ↔ (p, entry') ∈ parts ++ [(rmp, entry)] := by
  have hout (entry' : Entry) : (rmp, entry') ∉ parts := fun hmem =>
    h.not_mem hfresh (List.mem_map_of_mem hmem)
  by_cases hp : p = rmp
  · simp [allocate, hp, hout, eq_comm]
  · simp [allocate, hp, h.entries]

section Add

variable {mtdSize : ℕ} {offset size : ℤ} {name : CString}

theorem addMtdDevice_of_none (hhead : s.lhFirst = none) :
    s.addMtdDevice (some rmp) mtd mtdSize offset size name =
      let s := s.allocate rmp (newEntry s.mtdidx mtd mtdSize offset size name)
      some (0, { s with
        links := (s.links.setNext rmp none).setPrev rmp rmp, lhFirst := some rmp }) := by
  have hnew (entry : Entry) : (s.allocate rmp entry).entries rmp = some entry :=
    Function.update_self _ _ _
  have hhead' (entry : Entry) : (s.allocate rmp entry).lhFirst = none := hhead
  simp [addMtdDevice, assignNext, assignPrev, hnew, hhead']

theorem addMtdDevice_of_some {entry' entry'' : Entry} (hhead : s.lhFirst = some first)
    (hne : rmp ≠ first)
    (hfirst : (s.allocate rmp entry).entries first = some entry')
    (htail : (s.allocate rmp entry).entries ((s.allocate rmp entry).links.prev first) =
      some entry'')
    (hentry : newEntry s.mtdidx mtd mtdSize offset size name = entry) :
    s.addMtdDevice (some rmp) mtd mtdSize offset size name =
      some (0, { s.allocate rmp entry with
        links := (s.allocate rmp entry).links.append first rmp }) := by
  have hnew : (s.allocate rmp entry).entries rmp = some entry := Function.update_self _ _ _
  have hhead' : (s.allocate rmp entry).lhFirst = some first := hhead
  refine Eq.trans ?_ (append_eq hne hfirst hnew htail)
  unfold addMtdDevice
  dsimp only
  rw [hentry, hhead']

/-- A new entry is put behind the last one. -/
theorem Intact.addMtdDevice (h : s.Intact parts) (hfresh : s.entries rmp = none) :
    ∃ s', s.addMtdDevice (some rmp) mtd mtdSize offset size name = some (0, s') ∧
      s'.Intact (parts ++ [(rmp, newEntry s.mtdidx mtd mtdSize offset size name)]) ∧
        s'.mtdidx = s.mtdidx + 1 := by
  generalize hentry : newEntry s.mtdidx mtd mtdSize offset size name = entry
  have hholds := h.holds_allocate hfresh entry
  have hentries := h.entries_allocate hfresh entry
  have hcount : (parts ++ [(rmp, entry)]).length ≤ s.mtdidx + 1 := by
    have hle := h.count
    rw [List.length_append, List.length_singleton]
    omega
  cases parts with
  | nil =>
      rw [addMtdDevice_of_none h.holds, hentry]
      exact ⟨_, rfl, ⟨holds_single (by simp) (by simp), hentries, hcount⟩, rfl⟩
  | cons part parts =>
      have hlive (p : ℕ) (hp : p ∈ (part :: parts).map Prod.fst) :
          ∃ entry', (s.allocate rmp entry).entries p = some entry' := by
        obtain ⟨q, hq, rfl⟩ := List.mem_map.mp hp
        exact ⟨q.2, (hentries q.1 q.2).mpr (List.mem_append_left _ hq)⟩
      have hne : rmp ≠ part.1 := fun hrmp => h.not_mem hfresh (hrmp ▸ List.mem_cons_self)
      obtain ⟨_, hfirst⟩ := hlive part.1 List.mem_cons_self
      obtain ⟨_, htail⟩ := hlive _ (hholds.prev_mem List.mem_cons_self)
      have hhead : s.lhFirst = some part.1 := h.holds.head_eq
      rw [addMtdDevice_of_some hhead hne hfirst htail hentry]
      refine ⟨_, rfl, ⟨?_, hentries, hcount⟩, rfl⟩
      rw [List.map_append]
      exact hholds.append (h.not_mem hfresh)

end Add

/-! ## Removal -/

/-- What `del_mtd_device` does, whichever entry it finds. -/
theorem Intact.delMtdDevice (h : s.Intact parts) :
    s.delMtdDevice mtd = match parts.find? (·.2.mtd = mtd) with
      | none => some (-1, s)
      | some part =>
        if part.2.file.refs = 0 then
          some (0, ({ s with links := s.links.remove part.1 } : Devices).free part.1)
        else some (-1, s) := by
  unfold Devices.delMtdDevice
  rw [h.find mtd]
  cases hpart : parts.find? (·.2.mtd = mtd) with
  | none => rfl
  | some part =>
      have hmem := List.mem_of_find?_eq_some hpart
      have hmem' : part.1 ∈ parts.map Prod.fst := List.mem_map_of_mem hmem
      have hentry := h.entries_of_mem hmem
      obtain ⟨_, hprev⟩ := h.exists_entry (h.holds.prev_mem hmem')
      have hremove := remove_eq (h.holds.next_ne hmem') hentry hprev fun p hp =>
        h.exists_entry (h.holds.next_mem hmem' hp)
      simp [hentry, hremove]

/-- The entry that is found, with those before and behind it. -/
theorem Intact.exists_split (h : s.Intact parts) (hpart : parts.find? (·.2.mtd = mtd) = some part) :
    ∃ front behind, parts = front ++ part :: behind ∧ parts.erase part = front ++ behind := by
  obtain ⟨hmtd, front, behind, rfl, hfront⟩ := List.find?_eq_some_iff_append.mp hpart
  have hout : part ∉ front := by
    intro hmem
    have hno := hfront part hmem
    rw [hmtd] at hno
    cases hno
  refine ⟨front, behind, rfl, ?_⟩
  rw [List.erase_append_right _ hout, List.erase_cons_head]

/-- The memory of the entry is given back. -/
theorem Intact.entries_free (h : s.Intact (front ++ part :: behind)) {links : Links ℕ}
    (p : ℕ) (entry : Entry) :
    (({ s with links := links } : Devices).free part.1).entries p = some entry ↔
      (p, entry) ∈ front ++ behind := by
  have hnodup := h.holds.nodup
  rw [List.map_append, List.map_cons, List.nodup_middle, List.nodup_cons, ← List.map_append]
    at hnodup
  by_cases hp : p = part.1
  · have hout : (part.1, entry) ∉ front ++ behind := fun hmem =>
      hnodup.1 (List.mem_map.mpr ⟨_, hmem, rfl⟩)
    simp only [free, hp, Function.update_self, hout]
    simp
  · have hne : (p, entry) ≠ part := fun heq => hp (congrArg Prod.fst heq)
    simp only [free, Function.update_of_ne hp, h.entries, List.mem_append, List.mem_cons, hne,
      false_or]

/-- An entry that is neither the first nor the last one is taken out of the list. -/
theorem Intact.remove_inner (h : s.Intact (front ++ part :: behind)) (hfront : front ≠ [])
    (hbehind : behind ≠ []) :
    (({ s with links := s.links.remove part.1 } : Devices).free part.1).Intact
      (front ++ behind) where
  holds := by
    obtain ⟨a, as, rfl⟩ := List.exists_cons_of_ne_nil hfront
    obtain ⟨b, bs, rfl⟩ := List.exists_cons_of_ne_nil hbehind
    have hholds := h.holds
    rw [List.map_append, List.map_cons, List.map_cons, List.map_cons, List.cons_append] at hholds
    rw [List.map_append, List.map_cons, List.map_cons, List.cons_append]
    exact hholds.remove_inner
  entries := h.entries_free
  count := by
    have hle := h.count
    rw [List.length_append, List.length_cons] at hle
    rw [List.length_append]
    show _ ≤ s.mtdidx
    omega

/-- At an end of the list, what is left is not the list of the other entries. -/
theorem Intact.not_intact_of_end (h : s.Intact (front ++ part :: behind))
    (hend : front = [] ∨ behind = []) :
    ¬(({ s with links := s.links.remove part.1 } : Devices).free part.1).Intact
      (front ++ behind) := by
  intro h'
  have hholds := h.holds
  have hholds' := h'.holds
  cases front with
  | nil => exact not_holds_tail hholds hholds'
  | cons a as =>
      obtain rfl : behind = [] := hend.resolve_left (List.cons_ne_nil a as)
      rw [List.append_nil] at hholds'
      rw [List.map_append, List.map_cons, List.map_cons, List.cons_append] at hholds
      exact not_holds_remove_last hholds hholds'

end Devices

namespace Call

open Devices

variable {s : Devices} {parts : List Part} {call : Call}

theorem intact_use {rmp : ℕ} {refs : ℤ} (h : s.Intact parts)
    (hfresh : Fresh s (.use rmp refs)) :
    ∃ s', step s (.use rmp refs) = some s' ∧
      s'.Intact (apply s.mtdidx parts (.use rmp refs)) := by
  obtain ⟨entry, hentry⟩ := Option.isSome_iff_exists.mp hfresh
  have hmap : (apply s.mtdidx parts (.use rmp refs)).map Prod.fst = parts.map Prod.fst := by
    unfold apply
    rw [List.map_map]
    refine List.map_congr_left fun part _ => ?_
    dsimp only [Function.comp]
    split
    · rfl
    · rfl
  rw [step_use, hentry]
  refine ⟨_, rfl, hmap.symm ▸ h.holds, fun p entry' => ?_, ?_⟩
  · dsimp only [apply]
    rw [List.mem_map]
    constructor
    · intro hsome
      by_cases hp : p = rmp
      · rw [hp, Function.update_self] at hsome
        refine ⟨(rmp, entry), (h.entries _ _).mp hentry, ?_⟩
        rw [if_pos rfl, Option.some.inj hsome, hp]
      · rw [Function.update_of_ne hp] at hsome
        exact ⟨(p, entry'), (h.entries _ _).mp hsome, if_neg hp⟩
    · rintro ⟨part, hpart, heq⟩
      have hlive := h.entries_of_mem hpart
      split at heq
      · next hrmp =>
        obtain ⟨rfl, rfl⟩ := Prod.mk.inj heq
        rw [hrmp] at hlive ⊢
        rw [Function.update_self, Option.some.inj (hentry.symm.trans hlive)]
      · next hrmp =>
        obtain rfl := heq
        rw [Function.update_of_ne hrmp]
        exact hlive
  · unfold apply
    rw [List.length_map]
    exact h.count

/-- The end of the list that a removal reaches. -/
theorem sparesEnds_iff {front behind : List Part} {part : Part} {mtd : ℕ}
    (hnodup : (front ++ part :: behind).Nodup)
    (hpart : (front ++ part :: behind).find? (·.2.mtd = mtd) = some part)
    (hrefs : part.2.file.refs = 0) :
    SparesEnds (front ++ part :: behind) (.del mtd) ↔ front ≠ [] ∧ behind ≠ [] := by
  have hspares : SparesEnds (front ++ part :: behind) (.del mtd) ↔
      (front ++ part :: behind).head? ≠ some part ∧
        (front ++ part :: behind).getLast? ≠ some part := by
    refine ⟨fun h => h part hpart hrefs, fun h part' hsome _ => ?_⟩
    obtain rfl := Option.some.inj (hpart.symm.trans hsome)
    exact h
  rw [hspares]
  rw [List.nodup_middle, List.nodup_cons, List.mem_append, not_or] at hnodup
  refine and_congr (not_congr ?_) (not_congr ?_)
  · cases front with
    | nil => simp
    | cons a as =>
        have hne : a ≠ part := fun heq => hnodup.1.1 (heq ▸ List.mem_cons_self)
        simp [hne]
  · rw [List.getLast?_append_cons]
    cases behind with
    | nil => simp
    | cons b bs =>
        have hne : bs.getLastD b ≠ part := fun heq =>
          hnodup.1.2 (heq ▸ List.getLastD_mem_cons)
        rw [List.getLast?_cons, ← List.getLastD_eq_getLast?, List.getLastD_cons]
        exact iff_of_false (fun heq => hne (Option.some.inj heq)) (List.cons_ne_nil b bs)

/-- A call keeps the list intact if and only if it removes neither the first nor the last
entry. -/
theorem step_intact_iff (h : s.Intact parts) (hfresh : Fresh s call) :
    ∃ s', step s call = some s' ∧
      (s'.Intact (apply s.mtdidx parts call) ↔ SparesEnds parts call) := by
  cases call with
  | add rmp mtd mtdSize offset size name =>
      cases rmp with
      | none => exact ⟨s, rfl, iff_of_true h trivial⟩
      | some rmp =>
          obtain ⟨s', hadd, hintact, -⟩ := h.addMtdDevice hfresh
          refine ⟨s', ?_, iff_of_true hintact trivial⟩
          rw [step_add, hadd]
          rfl
  | use rmp refs =>
      obtain ⟨s', hstep, hintact⟩ := intact_use h hfresh
      exact ⟨s', hstep, iff_of_true hintact trivial⟩
  | del mtd =>
      rw [step_del, apply_del, h.delMtdDevice]
      cases hpart : parts.find? (·.2.mtd = mtd) with
      | none =>
          exact ⟨s, rfl, iff_of_true h fun part hsome => by cases hsome.symm.trans hpart⟩
      | some part =>
          dsimp only
          by_cases hrefs : part.2.file.refs = 0
          · rw [if_pos hrefs]
            obtain ⟨front, behind, rfl, herase⟩ := h.exists_split hpart
            refine ⟨_, rfl, ?_⟩
            rw [if_pos hrefs, herase, sparesEnds_iff (h.holds.nodup.of_map _) hpart hrefs]
            constructor
            · intro hintact
              constructor
              · intro hfront
                exact h.not_intact_of_end (Or.inl hfront) hintact
              · intro hbehind
                exact h.not_intact_of_end (Or.inr hbehind) hintact
            · rintro ⟨hfront, hbehind⟩
              exact h.remove_inner hfront hbehind
          · rw [if_neg hrefs, if_neg hrefs]
            refine ⟨s, rfl, iff_of_true h fun part' hsome hzero => ?_⟩
            cases hsome.symm.trans hpart
            exact absurd hzero hrefs

end Call

namespace Registry

open Devices Runs

/-- The list in memory is as its users expect it. -/
structure Survives (r : Registry) : Prop where
  /-- The traversal ends, with the entries in the order of addition. -/
  traversed : ∀ rounds, r.parts.length < rounds →
    r.devices.traverse rounds r.devices.lhFirst = some r.parts
  once : (r.parts.map Prod.fst).Nodup
  /-- The hidden tail pointer. -/
  tail : ∀ first last, r.parts.head? = some first → r.parts.getLast? = some last →
    r.devices.links.prev first.1 = last.1

theorem survives_of_intact {r : Registry} (h : r.devices.Intact r.parts) : r.Survives where
  traversed _ hrounds := h.traverse hrounds
  once := h.holds.nodup
  tail first last hfirst hlast := by
    obtain ⟨s, parts⟩ := r
    cases parts with
    | nil => cases hfirst
    | cons part parts =>
        obtain rfl : part = first := Option.some.inj hfirst
        have hprev := h.holds.prev_first
        rw [List.getLast?_cons, ← List.getLastD_eq_getLast?] at hlast
        rw [← Option.some.inj hlast]
        exact hprev.trans List.getLastD_map

/-- A call whose memory is fresh, and which removes neither the first nor the last entry. -/
def Careful (r : Registry) (call : Call) : Prop :=
  call.Fresh r.devices ∧ call.SparesEnds r.parts

instance (r : Registry) : DecidablePred (Careful r) := fun _ => instDecidableAnd

theorem intact_of_reach {r : Registry} (h : Reach step Careful (· = init) r) :
    r.devices.Intact r.parts := by
  refine h.invariant (P := fun r => r.devices.Intact r.parts) ?_ ?_
  · rintro _ rfl
    exact intact_init
  · rintro r call _ hintact ⟨hfresh, hspares⟩ hstep
    obtain ⟨s, hs, hiff⟩ := Call.step_intact_iff hintact hfresh
    unfold step at hstep
    rw [hs] at hstep
    cases hstep
    exact hiff.mpr hspares

/-- As long as no call removes the first or the last entry, the list holds the entries that were
added and not removed, and every call has a result. -/
theorem partitions_survive {r : Registry} (h : Reach step Careful (· = init) r) :
    r.Survives ∧ ∀ call : Call, call.Fresh r.devices → (r.step call).isSome = true := by
  have hintact := intact_of_reach h
  refine ⟨survives_of_intact hintact, fun call hfresh => ?_⟩
  obtain ⟨s, hs, -⟩ := Call.step_intact_iff hintact hfresh
  unfold step
  rw [hs]
  rfl

/-- Three entries, of which the middle one is removed before another one is added. -/
theorem partitions_survive_middle :
    ∃ r : Registry, r.parts.map Prod.fst = [1, 3, 2] ∧ r.Survives := by
  obtain ⟨r, hr, hparts⟩ := exists_of_any
    (show (runChecked step (fun r call => decide (Careful r call)) init
      [.add (some 1) 10 64 0 16 (cstr "kernel"), .add (some 2) 20 64 16 16 (cstr "rootfs"),
        .add (some 3) 30 64 32 32 (cstr "data"), .del 20,
        .add (some 2) 40 64 16 16 (cstr "rootfs")]).any
      (fun r => decide (r.parts.map Prod.fst = [1, 3, 2])) = true by decide)
  have hreach := @Reach.of_runChecked _ _ step (· = init) _ _ _ _ (.start rfl) hr
  have hcareful : Reach step Careful (· = init) r :=
    hreach.mono fun _ _ hcheck => of_decide_eq_true hcheck
  exact ⟨r, of_decide_eq_true hparts, (partitions_survive hcareful).1⟩

/-- The last of two entries is removed, and `malloc` returns its memory for the next one, which
does not get into the list. -/
theorem partitions_lose_entry :
    ∃ r : Registry, Reach step (fun r call => call.Fresh r.devices) (· = init) r ∧
      r.parts.map Prod.fst = [1, 2] ∧
      (r.devices.traverse 3 r.devices.lhFirst).map (·.map Prod.fst) = some [1] ∧
      ¬r.Survives := by
  obtain ⟨r, hr, hcheck⟩ := exists_of_any
    (show (runChecked step (fun r call => decide (call.Fresh r.devices)) init
      [.add (some 1) 10 64 0 16 (cstr "kernel"), .add (some 2) 20 64 16 16 (cstr "rootfs"),
        .del 20, .add (some 2) 30 64 32 32 (cstr "data")]).any
      (fun r => decide (r.parts.map Prod.fst = [1, 2] ∧
        (r.devices.traverse 3 r.devices.lhFirst).map (·.map Prod.fst) = some [1])) = true by decide)
  have hreach := @Reach.of_runChecked _ _ step (· = init) _ _ _ _ (.start rfl) hr
  obtain ⟨hparts, htraverse⟩ := of_decide_eq_true hcheck
  refine ⟨r, hreach.mono fun _ _ hfresh => of_decide_eq_true hfresh, hparts, htraverse, ?_⟩
  intro hsurvives
  have hlength : r.parts.length = 2 := by
    have hmap := congrArg List.length hparts
    rwa [List.length_map] at hmap
  rw [hsurvives.traversed 3 (by omega), Option.map_some, hparts] at htraverse
  exact absurd htraverse (by decide)

end Registry

end Mtd

end LuojiOs
