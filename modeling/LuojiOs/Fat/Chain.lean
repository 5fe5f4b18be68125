import LuojiOs.Fat.Entry
import LuojiOs.Support.Follow

/-!
# Chains of clusters

`fat_getChain` follows the entries of the table from a cluster on, once to count them and once to
store them, until an entry is an end of chain mark or the mark of a bad cluster.  Nothing notices
that a cluster is met again.  The upper four bits of an entry of FAT32 are taken for a part of
it.
-/

namespace LuojiOs

namespace Fat

open Devfs Climb Follow

variable {host : Host} {device s k n : ℕ} {fsc₀ fsc : FatSc} {vol vol' : Vol}

/-! ## Tables that can be read -/

/-- From devices in a good state, every sector of the table can be read, and the state is good
again. -/
structure TableReads (host : Host) (device : ℕ) (fsc₀ : FatSc) (good : Devs → Prop) : Prop where
  loads : ∀ vol s, Truthful host.usb device fsc₀ vol.fsc → good vol.devs → s < 2 ^ 22 →
    SectorLoads host device s vol
  stays : ∀ vol s, Truthful host.usb device fsc₀ vol.fsc → good vol.devs → s < 2 ^ 22 →
    good (loadFatSector host s vol).2.devs

/-- The state between two calls of `getFatEntry`. -/
structure Serves (host : Host) (device : ℕ) (fsc₀ : FatSc) (good : Devs → Prop) (vol : Vol) :
    Prop where
  truthful : Truthful host.usb device fsc₀ vol.fsc
  good : good vol.devs

section Serving

variable {good : Devs → Prop}

theorem Serves.withHeap {heap : Blocks} (h : Serves host device fsc₀ good vol) :
    Serves host device fsc₀ good { vol with heap := heap } :=
  ⟨h.truthful, h.good⟩

theorem Serves.load (h : Serves host device fsc₀ good vol)
    (hreads : TableReads host device fsc₀ good) (hs : s < 2 ^ 22) :
    ∃ vol', loadFatSector host s vol = (true, vol') ∧ Serves host device fsc₀ good vol' ∧
      vol'.heap = vol.heap := by
  have hstays := hreads.stays vol s h.truthful h.good hs
  obtain ⟨vol', hload, htruthful, -⟩ :=
    h.truthful.load hs (hreads.loads vol s h.truthful h.good hs)
  rw [hload] at hstays
  refine ⟨vol', hload, ⟨htruthful, hstays⟩, ?_⟩
  have hheap : (loadFatSector host s vol).2.heap = vol.heap := by
    unfold loadFatSector
    dsimp only
    split
    · rfl
    · rfl
  rw [hload] at hheap
  exact hheap

theorem Serves.cache (h : Serves host device fsc₀ good vol)
    (hreads : TableReads host device fsc₀ good) (hs : s < 2 ^ 22) :
    ∃ vol', cacheFatSector host s vol = (true, vol') ∧ Serves host device fsc₀ good vol' ∧
      vol'.heap = vol.heap := by
  unfold cacheFatSector
  split
  · exact h.load hreads hs
  · exact ⟨vol, rfl, h, rfl⟩

/-- Another sector, if the entry goes on in it. -/
theorem Serves.crossed {crossed : Bool} (h : Serves host device fsc₀ good vol)
    (hreads : TableReads host device fsc₀ good) (hs : s < 2 ^ 22) :
    ∃ vol', (if crossed then loadFatSector host s vol else (true, vol)) = (true, vol') ∧
      Serves host device fsc₀ good vol' ∧ vol'.heap = vol.heap := by
  split
  · exact h.load hreads hs
  · exact ⟨vol, rfl, h, rfl⟩

theorem Serves.entryLoads (h : Serves host device fsc₀ good vol)
    (hreads : TableReads host device fsc₀ good) (hk : k < 2 ^ 28) :
    EntryLoads host device k vol := by
  have hcache : ∀ o < 2 ^ 30, CacheLoads host device (o / SECTORSIZE) vol := by
    intro o ho _
    exact hreads.loads vol _ h.truthful h.good (by unfold SECTORSIZE; omega)
  unfold EntryLoads
  cases vol.fsc.fatType with
  | fat12 =>
      refine ⟨hcache _ (by omega), fun _ => ?_⟩
      have hs : (k - k % 2) * 3 / 2 / SECTORSIZE + 1 < 2 ^ 22 := by
        unfold SECTORSIZE
        omega
      obtain ⟨vol', hload, hserves, -⟩ := h.cache hreads ((Nat.lt_succ_self _).trans hs)
      rw [hload]
      exact hreads.loads vol' _ hserves.truthful hserves.good hs
  | fat16 => exact hcache _ (by omega)
  | fat32 => exact hcache _ (by omega)
  | unset => trivial

/-- A call leaves the devices in a good state, and the heap alone. -/
structure Leaves (host : Host) (device : ℕ) (fsc₀ : FatSc) (good : Devs → Prop) (vol vol' : Vol) :
    Prop where
  serves : Serves host device fsc₀ good vol'
  heap : vol'.heap = vol.heap

theorem Serves.wholeFatEntry {o : ℕ} {value : List (BitVec 8) → ℕ → ℕ}
    (h : Serves host device fsc₀ good vol) (hreads : TableReads host device fsc₀ good)
    (ho : o < 2 ^ 30) :
    Leaves host device fsc₀ good vol (Fat.wholeFatEntry host o value vol).2 := by
  have hs : o / SECTORSIZE < 2 ^ 22 := by
    unfold SECTORSIZE
    omega
  obtain ⟨vol', hcache, hserves, hheap⟩ := h.cache hreads hs
  unfold Fat.wholeFatEntry
  rw [hcache]
  exact ⟨hserves, hheap⟩

theorem Serves.fat12Entry (h : Serves host device fsc₀ good vol)
    (hreads : TableReads host device fsc₀ good) (hk : k < 2 ^ 28) :
    Leaves host device fsc₀ good vol (Fat.fat12Entry host k vol).2 := by
  have hs : (k - k % 2) * 3 / 2 / SECTORSIZE + 1 < 2 ^ 22 := by
    unfold SECTORSIZE
    omega
  unfold Fat.fat12Entry
  dsimp only
  rw [fat12_offset hk]
  generalize (k - k % 2) * 3 / 2 = o at hs
  obtain ⟨vol₁, hcache, hserves₁, hheap₁⟩ := h.cache hreads ((Nat.lt_succ_self _).trans hs)
  rw [hcache]
  dsimp only
  obtain ⟨vol₂, hsecond, hserves₂, hheap₂⟩ := @Serves.crossed host device _ fsc₀ vol₁ good
    (decide ((SECTORSIZE : ℤ) ≤ (o % SECTORSIZE : ℕ) + 1)) hserves₁ hreads hs
  rw [hsecond]
  dsimp only
  generalize (if decide ((SECTORSIZE : ℤ) ≤ (o % SECTORSIZE : ℕ) + 1) = true then
    ((o % SECTORSIZE : ℕ) : ℤ) - SECTORSIZE else (o % SECTORSIZE : ℕ)) = place
  obtain ⟨vol₃, hthird, hserves₃, hheap₃⟩ := @Serves.crossed host device _ fsc₀ vol₂ good
    (decide ((SECTORSIZE : ℤ) ≤ place + 2)) hserves₂ hreads hs
  rw [hthird]
  exact ⟨hserves₃, hheap₃.trans (hheap₂.trans hheap₁)⟩

/-- Where the table can be read, an entry is the one that is stored. -/
theorem Serves.entry (h : Serves host device fsc₀ good vol)
    (hreads : TableReads host device fsc₀ good) (hk : k < 2 ^ 28) :
    ∃ vol', getFatEntry host k vol = (tableEntry host.usb device fsc₀ k, vol') ∧
      Leaves host device fsc₀ good vol vol' := by
  have hentry := (h.truthful.decodes hk (h.entryLoads hreads hk)).entry
  have hleaves : Leaves host device fsc₀ good vol (getFatEntry host k vol).2 := by
    unfold getFatEntry
    cases vol.fsc.fatType with
    | fat12 => exact h.fat12Entry hreads hk
    | fat16 =>
        refine h.wholeFatEntry hreads ?_
        unfold uint32
        omega
    | fat32 =>
        refine h.wholeFatEntry hreads ?_
        unfold uint32
        omega
    | unset => exact ⟨h, rfl⟩
  refine ⟨(getFatEntry host k vol).2, ?_, hleaves⟩
  rw [← hentry]

end Serving

/-! ## Following the entries -/

/-- The mark of a bad cluster, and the first of the end of chain marks, as the walk compares
them. -/
def FatType.bad (t : FatType) : ℕ := t.mask &&& 0xfffffff7

def FatType.eoc (t : FatType) : ℕ := t.mask &&& 0xfffffff8

/-- Where the walk goes on from the cluster `c`. -/
def nextCluster (table : ℕ → ℕ) (t : FatType) (c : ℕ) : Option ℕ :=
  if table c = t.bad ∨ t.eoc ≤ table c then none else some (table c)

section Walk

variable {good : Devs → Prop} {table : ℕ → ℕ} {t : FatType} {c d : ℕ}

theorem nextCluster_eq_none : nextCluster table t c = none ↔ table c = t.bad ∨ t.eoc ≤ table c := by
  unfold nextCluster
  split
  · next h => exact iff_of_true rfl h
  · next h => exact iff_of_false (by simp) h

theorem nextCluster_eq_some (h : nextCluster table t c = some d) :
    table c = d ∧ d ≠ t.bad ∧ d < t.eoc := by
  unfold nextCluster at h
  split at h
  · cases h
  · next hgo =>
    cases h
    exact ⟨rfl, fun hbad => hgo (Or.inl hbad), Nat.lt_of_not_le fun heoc => hgo (Or.inr heoc)⟩

theorem eoc_le (t : FatType) : t.eoc ≤ 2 ^ 28 := by
  cases t <;> decide

theorem walkChain_succ {e : ℕ} {flag : ℤ} (hentry : getFatEntry host flag vol = (e, vol'))
    (htype : vol'.fsc.fatType = t) : walkChain host (n + 1) flag vol =
      if e = t.bad then some (false, [e], vol')
      else if t.eoc ≤ e then some (true, [e], vol')
      else (walkChain host n (int32 e) vol').map fun (ok, entries, vol) =>
        (ok, e :: entries, vol) := by
  rw [walkChain, hentry]
  dsimp only
  rw [htype]
  rfl

/-- The walk of the code is the walk along the entries of the table. -/
theorem Serves.walkChain (h : Serves host device fsc₀ good vol)
    (hreads : TableReads host device fsc₀ good) (htype : fsc₀.fatType = t)
    (htable : tableEntry host.usb device fsc₀ = table) (hc : c < 2 ^ 28) :
    (follow (nextCluster table t) n c = none ∧ Fat.walkChain host n c vol = none) ∨
      ∃ l ok vol', follow (nextCluster table t) n c = some l ∧
        Fat.walkChain host n c vol = some (ok, l.map table, vol') ∧
        (ok = true ↔ ∀ d ∈ l, table d ≠ t.bad) ∧ Leaves host device fsc₀ good vol vol' := by
  induction n generalizing c vol with
  | zero => exact Or.inl ⟨rfl, rfl⟩
  | succ n ih =>
      obtain ⟨vol₁, hentry, hleaves⟩ := h.entry hreads hc
      have hmask : vol₁.fsc.fatType = t := hleaves.serves.truthful.fatType.trans htype
      rw [htable] at hentry
      rw [walkChain_succ hentry hmask]
      unfold follow
      cases hnext : nextCluster table t c with
      | none =>
          rcases nextCluster_eq_none.mp hnext with hbad | heoc
          · refine Or.inr ⟨[c], false, vol₁, rfl, if_pos hbad, ?_, hleaves⟩
            simp [hbad]
          · by_cases hbad : table c = t.bad
            · refine Or.inr ⟨[c], false, vol₁, rfl, if_pos hbad, ?_, hleaves⟩
              simp [hbad]
            · refine Or.inr ⟨[c], true, vol₁, rfl, (if_neg hbad).trans (if_pos heoc), ?_, hleaves⟩
              simp [hbad]
      | some d =>
          obtain ⟨rfl, hbad, hgo⟩ := nextCluster_eq_some hnext
          have hlt : table c < 2 ^ 28 := hgo.trans_le (eoc_le t)
          have hflag : int32 (table c : ℤ) = table c := int32_eq_of_lt (by omega) (by omega)
          rw [if_neg hbad, if_neg (Nat.not_le.mpr hgo), hflag]
          dsimp only
          rcases ih hleaves.serves hlt with ⟨hfollow, hwalk⟩ |
            ⟨l, ok, vol', hfollow, hwalk, hok, hleaves'⟩
          · rw [hfollow, hwalk]
            exact Or.inl ⟨rfl, rfl⟩
          · rw [hfollow, hwalk]
            refine Or.inr ⟨c :: l, ok, vol', rfl, rfl, ?_, hleaves'.serves,
              hleaves'.heap.trans hleaves.heap⟩
            rw [hok, List.forall_mem_cons]
            exact (and_iff_right hbad).symm

/-! ## Chains of the format -/

/-- The chain from the cluster `c` on, as the format defines it on a volume with `count` clusters:
an entry without its reserved bits is the number of the next cluster, or ends the chain. -/
inductive LinkedChain (table : ℕ → ℕ) (t : FatType) (count : ℕ) : ℕ → List ℕ → Prop
  | last {c : ℕ} (hend : t.eoc ≤ table c &&& t.mask) : LinkedChain table t count c [c]
  | link {c d : ℕ} {cs : List ℕ} (hlink : table c &&& t.mask = d) (hcluster : d < t.bad)
      (hfirst : 2 ≤ d) (hlast : d < count + 2) (hrest : LinkedChain table t count d cs) :
      LinkedChain table t count c (c :: cs)

theorem and_mask_of_lt (h : d < t.eoc) : d &&& t.mask = d := by
  cases t with
  | unset => exact absurd h (Nat.not_lt_zero d)
  | fat12 => exact Nat.and_two_pow_sub_one_of_lt_two_pow (n := 12) (h.trans (by decide))
  | fat16 => exact Nat.and_two_pow_sub_one_of_lt_two_pow (n := 16) (h.trans (by decide))
  | fat32 => exact Nat.and_two_pow_sub_one_of_lt_two_pow (n := 28) (h.trans (by decide))

theorem lt_bad (hbad : d ≠ t.bad) (h : d < t.eoc) : d < t.bad := by
  have heoc : t.eoc ≤ t.bad + 1 := by cases t <;> decide
  omega

theorem LinkedChain.ne_nil {count : ℕ} {cs : List ℕ} (h : LinkedChain table t count c cs) :
    cs ≠ [] := by
  cases h with
  | last => exact List.cons_ne_nil _ _
  | link => exact List.cons_ne_nil _ _

/-- The places of a walk that ended form a chain of the format if every one after the first is a
cluster of the volume, and the last entry is an end of chain mark without its reserved bits. -/
theorem linkedChain_iff {count : ℕ} {l : List ℕ}
    (hl : follow (nextCluster table t) n c = some l) : LinkedChain table t count c l ↔
      (∀ d, Later (nextCluster table t) c d → 2 ≤ d ∧ d < count + 2) ∧
        ∀ d, Visits (nextCluster table t) c d → nextCluster table t d = none →
          t.eoc ≤ table d &&& t.mask := by
  induction n generalizing c l with
  | zero => cases hl
  | succ n ih =>
      unfold follow at hl
      cases hnext : nextCluster table t c with
      | none =>
          rw [hnext] at hl
          cases hl
          constructor
          · intro h
            refine ⟨fun d hd => absurd hd (not_later hnext), fun d hd _ => ?_⟩
            rw [visits_of_none hnext hd]
            cases h with
            | last hend => exact hend
            | link _ _ _ _ hrest => exact absurd rfl hrest.ne_nil
          · rintro ⟨-, hend⟩
            exact .last (hend c mem_met_self hnext)
      | some d =>
          rw [hnext] at hl
          obtain ⟨cs, hcs, rfl⟩ := Option.map_eq_some_iff.mp hl
          obtain ⟨hentry, hbad, hgo⟩ := nextCluster_eq_some hnext
          have hmask : table c &&& t.mask = d := by
            rw [hentry]
            exact and_mask_of_lt hgo
          constructor
          · intro h
            cases h with
            | last => exact absurd rfl (ne_nil_of_follow hcs)
            | link hlink hcluster hfirst hlast hrest =>
                obtain rfl := hlink.symm.trans hmask
                obtain ⟨hrange, hend⟩ := (ih hcs).mp hrest
                constructor
                · intro e he
                  rcases Relation.reflTransGen_iff_eq_or_transGen.mp
                    ((later_iff hnext).mp he) with rfl | hlater
                  · exact ⟨hfirst, hlast⟩
                  · exact hrange e hlater
                · intro e he hstop
                  rcases (visits_iff hnext).mp he with rfl | hvisit
                  · cases hnext.symm.trans hstop
                  · exact hend e hvisit hstop
          · rintro ⟨hrange, hend⟩
            have hd := hrange d ((later_iff hnext).mpr mem_met_self)
            refine .link hmask (lt_bad hbad hgo) hd.1 hd.2 ((ih hcs).mpr ⟨?_, ?_⟩)
            · intro e he
              exact hrange e ((later_iff hnext).mpr he.to_reflTransGen)
            · intro e he
              exact hend e (Relation.ReflTransGen.head hnext he)

/-- The entries that a walk has read are the places it has come to. -/
theorem take_entries {l : List ℕ} (hl : follow (nextCluster table t) n c = some l) :
    (c :: l.map table).take l.length = l := by
  induction n generalizing c l with
  | zero => cases hl
  | succ n ih =>
      unfold follow at hl
      cases hnext : nextCluster table t c with
      | none =>
          rw [hnext] at hl
          cases hl
          rfl
      | some d =>
          rw [hnext] at hl
          obtain ⟨cs, hcs, rfl⟩ := Option.map_eq_some_iff.mp hl
          obtain ⟨hentry, -, -⟩ := nextCluster_eq_some hnext
          rw [List.map_cons, List.length_cons, List.take_succ_cons, hentry, ih hcs]

/-! ## `fat_getChain` -/

/-- The call ends after no more entries than are waited for, and what it reports as a chain is
one. -/
def ChainCollected (host : Host) (device start : ℕ) (fsc : FatSc) (vol : Vol) : Prop :=
  ∃ res chain vol', fatGetChain host start vol = some (res, chain, vol') ∧
    (res = 1 → ∃ filled, chain = some filled ∧
      LinkedChain (tableEntry host.usb device fsc) fsc.fatType fsc.countOfClusters start
        filled.clusters)

/-- What the code relies on from the cluster `start` on: no cluster is met twice, there are no
more than the volume has, and the walk ends at the mark of a bad cluster, or at an end of chain
mark that is one without its reserved bits, behind clusters of the volume, with memory for
them. -/
structure SoundFrom (table : ℕ → ℕ) (t : FatType) (count start : ℕ) (memory : Prop) : Prop where
  acyclic : Acyclic (nextCluster table t) start
  few : (met (nextCluster table t) start).encard ≤ count
  ends : ∀ c, Visits (nextCluster table t) start c → nextCluster table t c = none →
    table c = t.bad ∨ memory ∧ t.eoc ≤ table c &&& t.mask ∧
      ∀ d, Later (nextCluster table t) start d → 2 ≤ d ∧ d < count + 2

theorem fatGetChain_of_none {start : ℕ} (h : walkChain host host.steps start vol = none) :
    fatGetChain host start vol = none := by
  unfold fatGetChain
  rw [h]

theorem fatGetChain_of_bad {start : ℕ} {entries : List ℕ}
    (h : walkChain host host.steps start vol = some (false, entries, vol')) :
    fatGetChain host start vol = some (-1, none, vol') := by
  unfold fatGetChain
  rw [h]

theorem fatGetChain_of_refused {start : ℕ} {entries : List ℕ}
    (h : walkChain host host.steps start vol = some (true, entries, vol'))
    (hrefused : host.refuses vol'.heap.next = true) : fatGetChain host start vol = none := by
  unfold fatGetChain Blocks.malloc
  rw [h]
  dsimp only
  rw [if_pos hrefused]

theorem fatGetChain_of_granted {start : ℕ} {counted entries : List ℕ}
    (h : walkChain host host.steps start vol = some (true, counted, vol'))
    (hgranted : host.refuses vol'.heap.next = false)
    (hagain : ∀ heap, ∃ vol₂, walkChain host host.steps start { vol' with heap := heap } =
      some (true, entries, vol₂)) :
    ∃ block vol₂, fatGetChain host start vol = some (1,
      some ⟨start, uint32 start :: entries, counted.length, some block⟩, vol₂) := by
  unfold fatGetChain Blocks.malloc
  rw [h]
  dsimp only
  rw [if_neg (Bool.eq_false_iff.mp hgranted)]
  obtain ⟨vol₂, hwalk⟩ := hagain _
  dsimp only
  rw [hwalk]
  exact ⟨_, vol₂, rfl⟩

/-- A walk that met no bad cluster is the same the second time. -/
theorem Serves.walkChain_again {start : ℕ} {l : List ℕ} (h : Serves host device fsc good vol)
    (hreads : TableReads host device fsc good)
    (htable : tableEntry host.usb device fsc = table) (hstart : start < 2 ^ 28)
    (hfollow : follow (nextCluster table fsc.fatType) n start = some l)
    (hgood : ∀ d ∈ l, table d ≠ fsc.fatType.bad) (heap : Blocks) :
    ∃ vol₂, Fat.walkChain host n start { vol with heap := heap } =
      some (true, l.map table, vol₂) := by
  have hserves : Serves host device fsc good { vol with heap := heap } := h.withHeap
  rcases @Serves.walkChain host device n fsc _ good table fsc.fatType start hserves hreads rfl
    htable hstart with ⟨hnone, -⟩ | ⟨l', ok, vol₂, hfollow', hwalk, hok, -⟩
  · cases hfollow.symm.trans hnone
  · cases hfollow.symm.trans hfollow'
    obtain rfl : ok = true := hok.mpr hgood
    exact ⟨vol₂, hwalk⟩

/-- The entries that are stored are the clusters of the walk, with the entry that ended it. -/
theorem clusters_stored {start : ℕ} {l : List ℕ} {block : Option ℕ} (hstart : start < 2 ^ 28)
    (hfollow : follow (nextCluster table t) n start = some l) :
    (⟨start, uint32 start :: l.map table, (l.map table).length, block⟩ : Fatchain).clusters =
      l := by
  unfold Fatchain.clusters
  rw [uint32_natCast (by omega), List.length_map]
  exact take_entries hfollow

/-- Where the table can be read, `fat_getChain` collects the chain from a cluster if and only if
the table is sound from there. -/
theorem fatGetChain_collects_iff {start : ℕ} (hserves : Serves host device fsc good vol)
    (hreads : TableReads host device fsc good) (hsteps : host.steps = fsc.countOfClusters)
    (hstart : start < 2 ^ 28) : ChainCollected host device start fsc vol ↔
      SoundFrom (tableEntry host.usb device fsc) fsc.fatType fsc.countOfClusters start
        (host.refuses vol.heap.next = false) := by
  generalize htable : tableEntry host.usb device fsc = table
  unfold ChainCollected
  rw [htable]
  rcases @Serves.walkChain host device host.steps fsc vol good table fsc.fatType start hserves
    hreads rfl htable hstart with ⟨hfollow, hwalk⟩ | ⟨l, ok, vol₁, hfollow, hwalk, hok, hleaves⟩
  · constructor
    · rintro ⟨res, chain, vol', hchain, -⟩
      rw [fatGetChain_of_none hwalk] at hchain
      cases hchain
    · intro hsound
      have hsome := follow_isSome_iff.mpr ⟨hsound.acyclic, hsteps ▸ hsound.few⟩
      rw [hfollow] at hsome
      cases hsome
  have hsome : (follow (nextCluster table fsc.fatType) host.steps start).isSome := by
    rw [hfollow]
    rfl
  obtain ⟨hacyclic, hfew⟩ := follow_isSome_iff.mp hsome
  rw [hsteps] at hfew
  obtain ⟨e, he, hend⟩ := exists_end hfollow
  have hone : ∀ c, Visits (nextCluster table fsc.fatType) start c →
      nextCluster table fsc.fatType c = none → c = e :=
    fun c hc hstop => end_unique hc hstop he hend
  cases ok with
  | false =>
      have hbad : table e = fsc.fatType.bad := by
        by_contra hne
        refine Bool.false_ne_true (hok.mpr fun d hd hbad => hne ?_)
        rw [← hone d ((mem_follow hfollow).mp hd) (nextCluster_eq_none.mpr (Or.inl hbad)), hbad]
      refine ⟨fun _ => ⟨hacyclic, hfew, ?_⟩, fun _ => ?_⟩
      · intro c hc hstop
        rw [hone c hc hstop]
        exact Or.inl hbad
      · exact ⟨-1, none, vol₁, fatGetChain_of_bad hwalk, fun h => by cases h⟩
  | true =>
      have hgood : table e ≠ fsc.fatType.bad := hok.mp rfl e ((mem_follow hfollow).mpr he)
      rw [← hleaves.heap]
      cases hmemory : host.refuses vol₁.heap.next with
      | true =>
          constructor
          · rintro ⟨res, chain, vol', hchain, -⟩
            rw [fatGetChain_of_refused hwalk hmemory] at hchain
            cases hchain
          · intro hsound
            rcases hsound.ends e he hend with hbad | ⟨hgranted, -⟩
            · exact absurd hbad hgood
            · cases hgranted
      | false =>
          obtain ⟨block, vol₂, hchain⟩ := fatGetChain_of_granted hwalk hmemory
            (hleaves.serves.walkChain_again hreads htable hstart hfollow (hok.mp rfl))
          have hclusters := @clusters_stored _ table fsc.fatType start l (some block) hstart hfollow
          have hlinked := @linkedChain_iff host.steps table fsc.fatType start fsc.countOfClusters l
            hfollow
          constructor
          · rintro ⟨res, chain, vol', hcall, hfilled⟩
            cases hchain.symm.trans hcall
            obtain ⟨filled, hsome, hformat⟩ := hfilled rfl
            cases hsome
            rw [hclusters] at hformat
            obtain ⟨hrange, hends⟩ := hlinked.mp hformat
            exact ⟨hacyclic, hfew, fun c hc hstop => Or.inr ⟨rfl, hends c hc hstop, hrange⟩⟩
          · intro hsound
            rcases hsound.ends e he hend with hbad | ⟨-, heoc, hrange⟩
            · exact absurd hbad hgood
            · refine ⟨1, _, vol₂, hchain, fun _ => ⟨_, rfl, ?_⟩⟩
              rw [hclusters]
              refine hlinked.mpr ⟨hrange, fun c hc hstop => ?_⟩
              rw [hone c hc hstop]
              exact heoc

end Walk

/-! ## Where all commands succeed -/

theorem tableReads_reliable (hok : ∀ n, host.usb.transport n = true)
    (hsize : host.usb.blksz device = 512) (hend : fsc.partitionStart < 2 ^ 31) :
    TableReads host device fsc (Slot host.usb fsc.fd device) := by
  have hloads : ∀ vol s, Truthful host.usb device fsc vol.fsc →
      Slot host.usb fsc.fd device vol.devs → s < 2 ^ 22 → SectorLoads host device s vol ∧
        Slot host.usb fsc.fd device (loadFatSector host s vol).2.devs := by
    intro vol s htruthful hslot hs
    have hreserved := htruthful.resSectors_lt
    rw [← htruthful.fd] at hslot ⊢
    refine sectorLoads_reliable hok hsize hslot htruthful.length ?_ hs ?_
    · rw [htruthful.resSectors]
      exact hreserved
    · rw [htruthful.resSectors, htruthful.partitionStart]
      omega
  exact ⟨fun vol s htruthful hslot hs => (hloads vol s htruthful hslot hs).1,
    fun vol s htruthful hslot hs => (hloads vol s htruthful hslot hs).2⟩

/-- A volume of FAT16 with `count` clusters behind one reserved sector. -/
def chainVol (count : ℕ) : Vol where
  fsc := { clearedSc 0 with
    fatType := .fat16, resSectors := 1, countOfClusters := count, fatCacheNum := -1 }
  devs := oneOpen 0
  heap := ⟨0, []⟩
  maxBufszClusts := 0

/-- A device with these bytes, and as many steps for a chain. -/
def chainHost (content : ℕ → BitVec 8) (steps : ℕ) : Host :=
  { tableHost with usb := { oneUsb 512 with content := fun _ => content }, steps := steps }

theorem chainVol_serves {content : ℕ → BitVec 8} {steps count : ℕ} :
    Serves (chainHost content steps) 0 (chainVol count).fsc
      (Slot (chainHost content steps).usb 0 0) (chainVol count) := by
  have hnew : NewTable (chainVol count).fsc :=
    ⟨show 1 < 2 ^ 16 by decide, List.length_replicate, rfl⟩
  exact ⟨hnew.truthful, ⟨⟨0, Or.inl rfl, rfl, rfl, rfl, rfl, rfl, List.length_replicate,
    List.length_replicate⟩, rfl⟩⟩

theorem chainVol_reads {content : ℕ → BitVec 8} {steps count : ℕ} :
    TableReads (chainHost content steps) 0 (chainVol count).fsc
      (Slot (chainHost content steps).usb 0 0) :=
  tableReads_reliable (fun _ => rfl) rfl (show 0 < 2 ^ 31 by decide)

/-- Cluster 2 leads to cluster 3, which is the last one. -/
def twoClusters (i : ℕ) : BitVec 8 := if i = 516 then 3 else if i = 517 then 0 else 0xff

theorem fatGetChain_collects_two :
    ChainCollected (chainHost twoClusters 2) 0 2 (chainVol 2).fsc (chainVol 2) := by
  refine (fatGetChain_collects_iff chainVol_serves chainVol_reads rfl (by decide)).mpr ?_
  have hfollow : follow (nextCluster (tableEntry (chainHost twoClusters 2).usb 0 (chainVol 2).fsc)
      (chainVol 2).fsc.fatType) 2 2 = some [2, 3] := by decide
  obtain ⟨hacyclic, hfew⟩ := follow_isSome_iff.mp (Option.isSome_of_eq_some hfollow)
  have hmem : ∀ c ∈ [2, 3], 2 ≤ c ∧ c < 2 + 2 := by decide
  refine ⟨hacyclic, hfew, fun c hc hstop => Or.inr ⟨rfl, ?_, fun d hd => ?_⟩⟩
  · rcases List.mem_pair.mp ((mem_follow hfollow).mpr hc) with rfl | rfl
    · exact absurd hstop (by decide)
    · decide
  · exact hmem d ((mem_follow hfollow).mpr hd.to_reflTransGen)

/-- Every entry of the table leads to cluster 2. -/
def allToTwo (i : ℕ) : BitVec 8 := if i % 2 = 0 then 2 else 0

theorem follow_of_loop {next : ℕ → Option ℕ} {c : ℕ} (h : next c = some c) :
    follow next n c = none := by
  induction n with
  | zero => rfl
  | succ n ih =>
      unfold follow
      rw [h]
      dsimp only
      rw [ih]
      rfl

/-- A cluster whose entry is its own number is followed forever. -/
theorem fatGetChain_loops :
    ¬ChainCollected (chainHost allToTwo 100) 0 2 (chainVol 100).fsc (chainVol 100) ∧
      ∀ steps, fatGetChain (chainHost allToTwo steps) (2 : ℕ) (chainVol 100) = none := by
  have hnone : ∀ steps, fatGetChain (chainHost allToTwo steps) (2 : ℕ) (chainVol 100) = none := by
    intro steps
    have hnext : nextCluster (tableEntry (chainHost allToTwo steps).usb 0 (chainVol 100).fsc)
        .fat16 2 = some 2 := rfl
    rcases @Serves.walkChain (chainHost allToTwo steps) 0 steps (chainVol 100).fsc (chainVol 100) _
      _ .fat16 2 chainVol_serves chainVol_reads rfl rfl (by decide) with
      ⟨-, hwalk⟩ | ⟨l, ok, vol, hfollow, -⟩
    · exact fatGetChain_of_none hwalk
    · cases (follow_of_loop hnext).symm.trans hfollow
  refine ⟨?_, hnone⟩
  rintro ⟨res, chain, vol', hcall, -⟩
  cases (hnone 100).symm.trans hcall

end Fat

end LuojiOs
