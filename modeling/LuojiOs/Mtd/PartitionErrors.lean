import LuojiOs.Mtd.PartitionText

/-!
# Errors in a partition string

The definitions in front of an error have been registered when `newpart` comes to it, and
`mtdpart_setup_real` returns the same as for a string without errors.
-/

namespace LuojiOs

namespace Mtd

open Devfs Numerals Parse Devices

variable {mtd : ℕ} {mtdSize : BitVec 32} {malloc : BitVec 32 → Option ℕ} {s t : CString}
  {st st' : Cmdline} {n rounds : ℕ} {c : BitVec 8} {ret : Option CString}

/-- The string behind a definition; `none` if there is an error in the definition. -/
def behindDefinition (s : CString) : Option CString :=
  (fetchSize s).bind fun r => (fetchName 0 (fetchOffset 0 r.2).2).map Prod.snd

/-- The string has an error behind `n` complete definitions. -/
inductive Malformed : ℕ → CString → Prop
  | definition {s : CString} (hs : behindDefinition s = none) : Malformed 0 s
  | text {s t : CString} {c : BitVec 8} (hs : behindDefinition s = some (c :: t))
      (hc : c ≠ comma ∧ c ≠ semicolon) : Malformed 1 s
  | next {n : ℕ} {s t : CString} (hs : behindDefinition s = some (comma :: t))
      (ht : Malformed n t) : Malformed (n + 1) s

/-- What the comment above `newpart` promises: nothing is registered, and the caller is told. -/
def Rejects (result : Option (ℤ × Cmdline)) (st : Cmdline) : Prop :=
  ∃ ret, result = some (ret, st) ∧ ret ≠ 0

/-- The offset that `newpart` leaves in `mtd_offset` if it finds an error. -/
def offsetAfter (mtdOffset : BitVec 32) (s : CString) : BitVec 32 :=
  match fetchSize s with
  | none => mtdOffset
  | some (_, t) => (fetchOffset mtdOffset t).1

/-! ## One definition -/

theorem fetchOffset_snd (mtdOffset : BitVec 32) (s : CString) :
    (fetchOffset mtdOffset s).2 = (fetchOffset 0 s).2 := by
  unfold fetchOffset
  split
  · rfl
  · rfl

theorem fetchName_snd (thisPart : BitVec 32) (s : CString) :
    (fetchName thisPart s).map Prod.snd = (fetchName 0 s).map Prod.snd := by
  unfold fetchName
  split
  · rfl
  · rfl

/-- What `newpart` can do. -/
theorem newpart_cases (h : newpart mtd mtdSize malloc s st = some (ret, st')) :
    behindDefinition s = none ∧ ret = none ∧
        st' = { st with mtdOffset := offsetAfter st.mtdOffset s } ∨
      ∃ rest, behindDefinition s = some rest ∧ st'.thisPart = st.thisPart + 1 ∧
        ret = if rest.head? = some comma then some rest else none := by
  unfold newpart at h
  unfold behindDefinition offsetAfter
  cases hsize : fetchSize s with
  | none =>
      rw [hsize] at h
      obtain ⟨rfl, rfl⟩ := Prod.mk.inj (Option.some.inj h)
      exact Or.inl ⟨rfl, rfl, rfl⟩
  | some r =>
      obtain ⟨size, t⟩ := r
      rw [hsize] at h
      dsimp only at h
      rw [fetchOffset_snd] at h
      have hname := fetchName_snd st.thisPart (fetchOffset 0 t).2
      rw [Option.bind_some]
      dsimp only
      rw [← hname]
      cases hfetch : fetchName st.thisPart (fetchOffset 0 t).2 with
      | none =>
          rw [hfetch] at h
          obtain ⟨rfl, rfl⟩ := Prod.mk.inj (Option.some.inj h)
          exact Or.inl ⟨rfl, rfl, rfl⟩
      | some r =>
          obtain ⟨realname, rest⟩ := r
          rw [hfetch] at h
          dsimp only at h
          split at h
          · cases h
          obtain ⟨devices, -, h⟩ := Option.map_eq_some_iff.mp h
          refine Or.inr ⟨rest, rfl, ?_⟩
          split at h
          · next hcomma =>
            obtain ⟨rfl, rfl⟩ := Prod.mk.inj h
            exact ⟨rfl, (if_pos hcomma).symm⟩
          · next hcomma =>
            obtain ⟨rfl, rfl⟩ := Prod.mk.inj h
            exact ⟨rfl, (if_neg hcomma).symm⟩

/-! ## Lengths -/

theorem length_handleSign_le (s : CString) : (handleSign s).2.length ≤ s.length := by
  cases s with
  | nil => exact Nat.le_refl 0
  | cons c s =>
      unfold handleSign
      dsimp only
      split
      · exact Nat.le_succ _
      · exact Nat.le_refl _

theorem length_handleBase_le (base : ℕ) (s : CString) :
    (handleBase base s).2.length ≤ s.length := by
  have htail : s.tail.length ≤ s.length := by
    rw [List.length_tail]
    exact Nat.sub_le _ _
  have htails : s.tail.tail.length ≤ s.length := by
    rw [List.length_tail]
    exact (Nat.sub_le _ _).trans htail
  unfold handleBase
  split
  · split
    · dsimp only
      split
      · exact htails
      · exact htail
    · exact Nat.le_refl _
  split
  · dsimp only
    split <;> split
    · exact htails
    · exact htail
    · exact htails
    · exact htail
  · exact Nat.le_refl _

theorem length_endptr_le (s : CString) (base : ℕ) :
    (Parse.strtoul s base).endptr.length ≤ s.length := by
  rw [strtoul_eq handleBase_pos]
  calc (readCode base (body s)).2.length
      ≤ (handleBase base (body s)).2.length := List.length_dropWhile_le _ _
    _ ≤ (body s).length := length_handleBase_le base _
    _ ≤ (s.dropWhile isspace).length := length_handleSign_le _
    _ ≤ s.length := List.length_dropWhile_le _ _

theorem length_memparse_le (s : CString) : (memparse s).2.length ≤ s.length := by
  refine le_trans ?_ (length_endptr_le s 0)
  unfold memparse
  generalize Parse.strtoul s 0 = r
  obtain ⟨result, erange, endptr⟩ := r
  dsimp only
  cases endptr with
  | nil => exact Nat.le_refl 0
  | cons c rest =>
      dsimp only
      split
      · exact Nat.le_refl _
      · exact Nat.le_succ _

theorem length_tail_le (s : CString) : s.tail.length ≤ s.length := by
  rw [List.length_tail]
  exact Nat.sub_le _ _

theorem length_behindDefinition (h : behindDefinition s = some t) : t.length ≤ s.length := by
  obtain ⟨⟨size, u⟩, hsize, h⟩ := Option.bind_eq_some_iff.mp h
  obtain ⟨⟨name, rest⟩, hname, rfl⟩ := Option.map_eq_some_iff.mp h
  have hle : u.length ≤ s.length := by
    unfold fetchSize at hsize
    split at hsize
    · obtain ⟨-, rfl⟩ := Prod.mk.inj (Option.some.inj hsize)
      exact length_tail_le s
    · dsimp only at hsize
      split at hsize
      · cases hsize
      · obtain ⟨-, rfl⟩ := Prod.mk.inj (Option.some.inj hsize)
        exact length_memparse_le s
  have hle' : (fetchOffset 0 u).2.length ≤ u.length := by
    unfold fetchOffset
    split
    · exact (length_memparse_le _).trans (length_tail_le u)
    · exact Nat.le_refl _
  refine le_trans ?_ (hle'.trans hle)
  dsimp only at hname ⊢
  unfold fetchName at hname
  split at hname
  · split at hname
    · obtain ⟨-, rfl⟩ := Prod.mk.inj (Option.some.inj hname)
      exact ((length_tail_le _).trans (List.length_dropWhile_le _ _)).trans (length_tail_le _)
    · cases hname
  · obtain ⟨-, rfl⟩ := Prod.mk.inj (Option.some.inj hname)
    exact Nat.le_refl _

/-- The loop ends before the rounds are used up. -/
theorem setupLoop_rounds (hs : s ≠ []) (hrounds : s.length ≤ rounds) :
    setupLoop mtd mtdSize malloc (rounds + 1) s st = setupLoop mtd mtdSize malloc rounds s st := by
  induction rounds generalizing s st with
  | zero => exact absurd (List.length_eq_zero_iff.mp (Nat.le_zero.mp hrounds)) hs
  | succ rounds ih =>
      unfold setupLoop
      cases hnew : newpart mtd mtdSize malloc s.tail st with
      | none => rfl
      | some r =>
          obtain ⟨ret, st'⟩ := r
          cases ret with
          | none => rfl
          | some rest =>
              rcases newpart_cases hnew with ⟨-, hret, -⟩ | ⟨rest', hrest, -, hret⟩
              · cases hret
              split at hret
              · next hcomma =>
                obtain rfl := Option.some.inj hret
                have hle := length_behindDefinition hrest
                rw [List.length_tail] at hle
                refine ih ?_ (by omega)
                rintro rfl
                cases hcomma
              · cases hret

/-! ## The whole string -/

/-- One round of the loop. -/
theorem setupLoop_succ
    (h : setupLoop mtd mtdSize malloc (rounds + 1) (c :: s) st = some st') :
    behindDefinition s = none ∧ st' = { st with mtdOffset := offsetAfter st.mtdOffset s } ∨
      ∃ rest st₁, behindDefinition s = some rest ∧ st₁.thisPart = st.thisPart + 1 ∧
        if rest.head? = some comma then
          setupLoop mtd mtdSize malloc rounds rest st₁ = some st'
        else st' = st₁ := by
  unfold setupLoop at h
  rw [List.tail_cons] at h
  cases hnew : newpart mtd mtdSize malloc s st with
  | none =>
      rw [hnew] at h
      cases h
  | some r =>
      obtain ⟨ret, st₁⟩ := r
      rw [hnew] at h
      rcases newpart_cases hnew with ⟨hs, rfl, rfl⟩ | ⟨rest, hs, hthis, rfl⟩
      · exact Or.inl ⟨hs, (Option.some.inj h).symm⟩
      · refine Or.inr ⟨rest, st₁, hs, hthis, ?_⟩
        split at h
        · cases h
        · next heq =>
          split at heq
          · cases heq
          · next hcomma =>
            obtain ⟨-, rfl⟩ := Prod.mk.inj (Option.some.inj heq)
            rw [if_neg hcomma]
            exact (Option.some.inj h).symm
        · next heq =>
          split at heq
          · next hcomma =>
            obtain ⟨hrest, rfl⟩ := Prod.mk.inj (Option.some.inj heq)
            obtain rfl := Option.some.inj hrest
            rw [if_pos hcomma]
            exact h
          · cases heq

/-- The definitions in front of the error are counted. -/
theorem setupLoop_malformed (hs : Malformed n s)
    (h : setupLoop mtd mtdSize malloc rounds (c :: s) st = some st') :
    n ≤ rounds ∧ st'.thisPart = st.thisPart + BitVec.ofNat 32 n ∧
      (n = 0 → st' = { st with mtdOffset := offsetAfter st.mtdOffset s }) := by
  induction hs generalizing rounds st c with
  | definition hs =>
      cases rounds with
      | zero => cases h
      | succ rounds =>
          rcases setupLoop_succ h with ⟨-, rfl⟩ | ⟨rest, st₁, hrest, -⟩
          · exact ⟨Nat.zero_le _, (BitVec.add_zero _).symm, fun _ => rfl⟩
          · cases hs.symm.trans hrest
  | @text s t d hs hd =>
      cases rounds with
      | zero => cases h
      | succ rounds =>
          rcases setupLoop_succ h with ⟨hnone, -⟩ | ⟨rest, st₁, hrest, hthis, hloop⟩
          · cases hs.symm.trans hnone
          · obtain rfl := Option.some.inj (hs.symm.trans hrest)
            have hcomma : ¬(d :: t).head? = some comma := fun h => hd.1 (Option.some.inj h)
            rw [if_neg hcomma] at hloop
            subst hloop
            exact ⟨Nat.succ_le_succ (Nat.zero_le _), hthis, nofun⟩
  | @next n s t hs ht ih =>
      cases rounds with
      | zero => cases h
      | succ rounds =>
          rcases setupLoop_succ h with ⟨hnone, -⟩ | ⟨rest, st₁, hrest, hthis, hloop⟩
          · cases hs.symm.trans hnone
          · obtain rfl := Option.some.inj (hs.symm.trans hrest)
            have hcomma : (comma :: t).head? = some comma := rfl
            rw [if_pos hcomma] at hloop
            obtain ⟨hle, hthis', -⟩ := ih hloop
            refine ⟨Nat.succ_le_succ hle, ?_, nofun⟩
            rw [hthis', hthis, BitVec.ofNat_add, BitVec.add_assoc, BitVec.add_comm 1]
            rfl

theorem thisPart_ne {x : BitVec 32} (hpos : n ≠ 0) (hn : n < 2 ^ 32) :
    x + BitVec.ofNat 32 n ≠ x := by
  intro heq
  have hzero : BitVec.ofNat 32 n = 0 := by
    rw [← BitVec.add_zero x, BitVec.add_assoc, BitVec.zero_add] at heq
    exact (BitVec.add_right_inj x).mp heq
  have htoNat := congrArg BitVec.toNat hzero
  rw [BitVec.toNat_ofNat, Nat.mod_eq_of_lt hn] at htoNat
  exact hpos htoNat

/-- No string with an error is rejected: the definitions in front of the error stay registered,
and the result is 0 in any case. -/
theorem mtdpartSetupReal_malformed {id : CString} (hid : colonSign ∉ id) (hs : Malformed n s)
    (hlen : (id ++ colonSign :: s).length < 2 ^ 32) :
    ¬Rejects (mtdpartSetupReal mtd mtdSize malloc (id ++ colonSign :: s) st) st ∧
      ∀ ret st', mtdpartSetupReal mtd mtdSize malloc (id ++ colonSign :: s) st = some (ret, st') →
        ret = 0 ∧ st'.thisPart = st.thisPart + BitVec.ofNat 32 n ∧
          (st' = st ↔ n = 0 ∧ offsetAfter st.mtdOffset s = st.mtdOffset) := by
  have hbehind : (id ++ colonSign :: s).dropWhile (· ≠ colonSign) = colonSign :: s := by
    have hall : ∀ c ∈ id, decide (c ≠ colonSign) = true := fun c hc =>
      decide_eq_true fun heq => hid (heq ▸ hc)
    rw [List.dropWhile_append_of_pos hall, List.dropWhile_cons_of_neg (by decide)]
  have hmain : ∀ ret st',
      mtdpartSetupReal mtd mtdSize malloc (id ++ colonSign :: s) st = some (ret, st') →
        ret = 0 ∧ st'.thisPart = st.thisPart + BitVec.ofNat 32 n ∧
          (st' = st ↔ n = 0 ∧ offsetAfter st.mtdOffset s = st.mtdOffset) := by
    intro ret st' h
    unfold mtdpartSetupReal at h
    rw [if_pos (List.mem_append_right _ List.mem_cons_self), hbehind] at h
    obtain ⟨st₁, hloop, heq⟩ := Option.map_eq_some_iff.mp h
    obtain ⟨rfl, rfl⟩ := Prod.mk.inj heq
    obtain ⟨hle, hthis, hzero⟩ := setupLoop_malformed hs hloop
    refine ⟨rfl, hthis, fun hsame => ?_, fun ⟨hn, hoffset⟩ => ?_⟩
    · have hn : n = 0 := by
        by_contra hpos
        rw [hsame] at hthis
        exact thisPart_ne hpos (hle.trans_lt hlen) hthis.symm
      refine ⟨hn, ?_⟩
      rw [hzero hn] at hsame
      exact congrArg Cmdline.mtdOffset hsame
    · rw [hzero hn, hoffset]
  refine ⟨fun ⟨ret, hret, hne⟩ => ?_, hmain⟩
  exact hne (hmain ret st hret).1

/-! ## A string with an error in its second definition -/

/-- `nand:1M(a),2M(b` -/
def unclosed : CString := cstr "1M(a),2M(b"

theorem malformed_unclosed : Malformed 1 unclosed := by
  refine @Malformed.next 0 unclosed (cstr "2M(b") (by decide) ?_
  exact Malformed.definition (by decide)

theorem mtdpartSetupReal_malformed_unclosed :
    ¬Rejects (mtdpartSetupReal 7 0x8000000 (fun i => some i.toNat)
        (cstr "nand" ++ colonSign :: unclosed) ⟨0, 0, Devices.init⟩) ⟨0, 0, Devices.init⟩ ∧
      ∀ ret st', mtdpartSetupReal 7 0x8000000 (fun i => some i.toNat)
          (cstr "nand" ++ colonSign :: unclosed) ⟨0, 0, Devices.init⟩ = some (ret, st') →
        ret = 0 ∧ st'.thisPart = 0 + BitVec.ofNat 32 1 ∧
          (st' = ⟨0, 0, Devices.init⟩ ↔ 1 = 0 ∧ offsetAfter 0 unclosed = 0) :=
  mtdpartSetupReal_malformed (by decide) malformed_unclosed (by decide)

theorem mtdpartSetupReal_unclosed :
    Malformed 1 unclosed ∧
      ((mtdpartSetupReal 7 0x8000000 (fun i => some i.toNat)
        (cstr "nand" ++ colonSign :: unclosed) ⟨0, 0, Devices.init⟩).map fun r =>
          (r.1, r.2.mtdOffset, r.2.thisPart, (r.2.devices.entries 0).map Entry.file)) =
        some (0, 0x100000, 1, some ⟨0, 0, 0x100000, 0, cstr "a"⟩) :=
  ⟨malformed_unclosed, by decide⟩

end Mtd

end LuojiOs
