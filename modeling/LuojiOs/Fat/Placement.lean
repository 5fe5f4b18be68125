import LuojiOs.Fat.Rounds
import Mathlib.Data.List.GetD
import Mathlib.Data.List.Nodup

/-!
# Where a file stands

The sectors of a file, in the order of its bytes, and their numbers on the volume.
`getSectorIndex_read` finds the number of a sector, and how many of the sectors that follow it in
the file follow it on the disk too.
-/

namespace LuojiOs

namespace Fat

open Devfs

variable {usb : Usb} {device : ℕ} {fsc fsc' : FatSc} {chain : Fatchain} {front : ℤ → Option ℕ}
  {m limit place c index need q q' k : ℕ}

/-! ## The bytes of a file -/

/-- The clusters of a file, in their order. -/
def Fatchain.clusters (chain : Fatchain) : List ℕ := chain.entries.take chain.count

/-- Byte `j` of a cluster, as it is stored on the device. -/
def clusterByte (usb : Usb) (device : ℕ) (fsc : FatSc) (c j : ℕ) : BitVec 8 :=
  usb.content device
    ((fsc.partitionStart + fsc.dataSectorBase + (c - 2) * fsc.secPerClust) * SECTORSIZE + j)

def fileByte (usb : Usb) (device : ℕ) (fsc : FatSc) (k : ℕ) : BitVec 8 :=
  clusterByte usb device fsc (fsc.file.chain.clusters.getD (k / fsc.bytesPerClust) 0)
    (k % fsc.bytesPerClust)

/-- The `n` bytes of a file from its byte `o` on. -/
def fileBytes (usb : Usb) (device : ℕ) (fsc : FatSc) (o n : ℕ) : List (BitVec 8) :=
  (List.range n).map fun i => fileByte usb device fsc (o + i)

/-- A volume on a device whose sectors have numbers of 32 bits, and a file on it with enough
clusters, none of which is repeated. -/
structure OnVolume (fsc : FatSc) : Prop where
  secPerClust : 0 < fsc.secPerClust
  bytesPerClust : fsc.bytesPerClust = fsc.secPerClust * SECTORSIZE
  nodup : fsc.file.chain.clusters.Nodup
  enough : fsc.file.fileSize ≤ fsc.file.chain.clusters.length * fsc.bytesPerClust
  entry : ∀ c ∈ fsc.file.chain.clusters, 2 ≤ c ∧ c < 2 ^ 32
  numbered : ∀ c ∈ fsc.file.chain.clusters,
    fsc.partitionStart + fsc.dataSectorBase + (c - 1) * fsc.secPerClust ≤ 2 ^ 32

theorem OnVolume.of_unread (h : OnVolume fsc) (hunread : fsc'.unread = fsc.unread) :
    OnVolume fsc' := by
  have hold : OnVolume fsc.unread := ⟨h.1, h.2, h.3, h.4, h.5, h.6⟩
  rw [← hunread] at hold
  exact ⟨hold.1, hold.2, hold.3, hold.4, hold.5, hold.6⟩

theorem file_of_unread (h : fsc'.unread = fsc.unread) : fsc'.file = fsc.file := by
  change fsc'.unread.file = fsc.unread.file
  rw [h]

theorem bytesPerClust_of_unread (h : fsc'.unread = fsc.unread) :
    fsc'.bytesPerClust = fsc.bytesPerClust := by
  change fsc'.unread.bytesPerClust = fsc.unread.bytesPerClust
  rw [h]

theorem fileBytes_of_unread {o n : ℕ} (h : fsc'.unread = fsc.unread) :
    fileBytes usb device fsc' o n = fileBytes usb device fsc o n := by
  change fileBytes usb device fsc'.unread o n = fileBytes usb device fsc.unread o n
  rw [h]

theorem fileBytes_add {o l : ℕ} : fileBytes usb device fsc o (k + l) =
    fileBytes usb device fsc o k ++ fileBytes usb device fsc (o + k) l := by
  unfold fileBytes
  rw [List.range_add, List.map_append, List.map_map]
  simp only [Function.comp_def, Nat.add_assoc]

/-! ## Its sectors -/

/-- The number of the sectors of a file. -/
def sectorCount (fsc : FatSc) : ℕ := fsc.file.chain.clusters.length * fsc.secPerClust

/-- The number on the volume of the sector `q` of a file. -/
def fileSector (fsc : FatSc) (q : ℕ) : ℕ :=
  fsc.dataSectorBase + (fsc.file.chain.clusters.getD (q / fsc.secPerClust) 0 - 2) * fsc.secPerClust +
    q % fsc.secPerClust

theorem fileByte_eq (h : OnVolume fsc) : fileByte usb device fsc k = usb.content device
    ((fsc.partitionStart + fileSector fsc (k / SECTORSIZE)) * SECTORSIZE + k % SECTORSIZE) := by
  have hdiv : k / fsc.bytesPerClust = k / SECTORSIZE / fsc.secPerClust := by
    rw [h.bytesPerClust, Nat.div_div_eq_div_mul, Nat.mul_comm]
  have hmod : k % fsc.bytesPerClust =
      SECTORSIZE * (k / SECTORSIZE % fsc.secPerClust) + k % SECTORSIZE := by
    rw [h.bytesPerClust, Nat.mul_comm, Nat.mod_mul, Nat.add_comm]
  unfold fileByte clusterByte fileSector
  rw [hdiv, hmod]
  refine congrArg (usb.content device) ?_
  simp only [Nat.add_mul, Nat.mul_comm SECTORSIZE, Nat.add_assoc]

theorem OnVolume.sectors_enough (h : OnVolume fsc) :
    fsc.file.fileSize ≤ sectorCount fsc * SECTORSIZE := by
  unfold sectorCount
  rw [Nat.mul_assoc, ← h.bytesPerClust]
  exact h.enough

theorem getD_mem_clusters {i : ℕ} (h : i < chain.clusters.length) :
    chain.clusters.getD i 0 ∈ chain.clusters := by
  rw [List.getD_eq_getElem _ _ h]
  exact List.getElem_mem h

theorem clusters_getD {i : ℕ} (h : i < chain.clusters.length) :
    chain.clusters.getD i 0 = chain.entries.getD i 0 := by
  unfold Fatchain.clusters at h ⊢
  rw [List.length_take] at h
  rw [List.getD_eq_getElem?_getD, List.getD_eq_getElem?_getD, List.getElem?_take_of_lt (by omega)]

theorem lt_count {i : ℕ} (h : i < chain.clusters.length) : i < chain.count := by
  unfold Fatchain.clusters at h
  rw [List.length_take] at h
  omega

theorem OnVolume.cluster_lt (h : OnVolume fsc) (hq : q < sectorCount fsc) :
    q / fsc.secPerClust < fsc.file.chain.clusters.length :=
  (Nat.div_lt_iff_lt_mul h.secPerClust).mpr hq

theorem OnVolume.fileSector_lt (h : OnVolume fsc) (hq : q < sectorCount fsc) :
    fsc.partitionStart + fileSector fsc q < 2 ^ 32 := by
  have hmem := getD_mem_clusters (h.cluster_lt hq)
  unfold fileSector
  generalize fsc.file.chain.clusters.getD (q / fsc.secPerClust) 0 = c at hmem ⊢
  have hnumbered := h.numbered c hmem
  have hrest := Nat.mod_lt q h.secPerClust
  obtain ⟨d, rfl⟩ := Nat.exists_eq_add_of_le (h.entry c hmem).1
  rw [show 2 + d - 1 = d + 1 by omega, Nat.add_mul] at hnumbered
  rw [show 2 + d - 2 = d by omega]
  omega

/-- No two sectors of a file have the same number. -/
theorem OnVolume.fileSector_inj (h : OnVolume fsc) (hq : q < sectorCount fsc)
    (hq' : q' < sectorCount fsc) (heq : fileSector fsc q = fileSector fsc q') : q = q' := by
  have hlt := h.cluster_lt hq
  have hlt' := h.cluster_lt hq'
  have hmem := getD_mem_clusters hlt
  have hmem' := getD_mem_clusters hlt'
  have hsum : (fsc.file.chain.clusters.getD (q / fsc.secPerClust) 0 - 2) * fsc.secPerClust +
      q % fsc.secPerClust = (fsc.file.chain.clusters.getD (q' / fsc.secPerClust) 0 - 2) *
        fsc.secPerClust + q' % fsc.secPerClust := by
    unfold fileSector at heq
    omega
  have hmod : q % fsc.secPerClust = q' % fsc.secPerClust := by
    have hboth := congrArg (· % fsc.secPerClust) hsum
    simpa only [Nat.mul_add_mod', Nat.mod_mod] using hboth
  have hcluster : fsc.file.chain.clusters.getD (q / fsc.secPerClust) 0 =
      fsc.file.chain.clusters.getD (q' / fsc.secPerClust) 0 := by
    rw [hmod] at hsum
    have hprod := Nat.eq_of_mul_eq_mul_right h.secPerClust (Nat.add_right_cancel hsum)
    have hle := (h.entry _ hmem).1
    have hle' := (h.entry _ hmem').1
    omega
  have hdiv : q / fsc.secPerClust = q' / fsc.secPerClust := by
    rw [List.getD_eq_getElem _ _ hlt, List.getD_eq_getElem _ _ hlt'] at hcluster
    exact h.nodup.getElem_inj_iff.mp hcluster
  rw [← Nat.div_add_mod q fsc.secPerClust, ← Nat.div_add_mod q' fsc.secPerClust, hdiv, hmod]

/-! ## Numbers of 32 bits -/

theorem int32_eq_of_lt {z : ℤ} (hz : 0 ≤ z) (hlt : z < 2 ^ 31) : int32 z = z := by
  unfold int32
  rw [Int.bmod_def]
  omega

theorem int32_eq_of_nonneg {p z : ℤ} (hp : 0 ≤ p) (hz : 0 ≤ z) (hlt : p + z < 2 ^ 32)
    (h : 0 ≤ p + int32 z) : int32 z = z ∧ z < 2 ^ 31 := by
  unfold int32 at h ⊢
  rw [Int.bmod_def] at h ⊢
  omega

/-- The number that follows another is one more, unless it is 0. -/
theorem eq_succ_of_int32 {d : ℕ} (hc : c < 2 ^ 32) (hd : 0 < d) (hlt : d < 2 ^ 32)
    (h : int32 c + 1 = int32 d) : d = c + 1 := by
  unfold int32 at h
  rw [Int.bmod_def, Int.bmod_def] at h
  omega

/-- The number of a sector may be computed from a cluster that was stored in an `int`. -/
theorem int32_sector {base n s e : ℤ} :
    int32 (base + (int32 e - 2) * n + s) = int32 (base + (e - 2) * n + s) := by
  unfold int32
  rw [Int.bmod_eq_self_sub_mul_bdiv e]
  generalize Int.bdiv e (2 ^ 32) = t
  have hsum : base + (e - ((2 ^ 32 : ℕ) : ℤ) * t - 2) * n + s =
      base + (e - 2) * n + s - ((2 ^ 32 : ℕ) : ℤ) * (t * n) := by
    rw [← Int.mul_assoc, Int.sub_mul, Int.sub_mul, Int.sub_mul]
    omega
  rw [hsum, Int.sub_mul_bmod_self_left]

theorem uint32_natCast {n : ℕ} (h : n < 2 ^ 32) : uint32 n = n := by
  unfold uint32
  omega

/-! ## Clusters that follow one another on the disk -/

theorem clusterRun_bounds {place : ℤ} {i n : ℕ} {last : ℤ}
    (h : clusterRun front chain limit place i last = some n) : i ≤ n ∧ n ≤ i + limit := by
  induction limit generalizing place i last with
  | zero =>
      obtain rfl : i = n := Option.some.inj h
      exact ⟨le_rfl, le_rfl⟩
  | succ limit ih =>
      unfold clusterRun at h
      split at h
      · split at h
        · cases h
        · dsimp only at h
          split at h
          · obtain rfl : i = n := Option.some.inj h
            omega
          · have hrest := ih h
            omega
      · obtain rfl : i = n := Option.some.inj h
        omega

/-- The number of the clusters in a run that does not begin in front of the chain. -/
def runLength (chain : Fatchain) : ℕ → ℕ → ℕ → ℤ → ℕ
  | 0, _, i, _ => i
  | limit + 1, place, i, last =>
    if place < chain.count then
      let entry := int32 (chain.entries.getD place 0)
      if i ≠ 0 ∧ last + 1 ≠ entry then i else runLength chain limit (place + 1) (i + 1) entry
    else i

theorem entryAt_natCast : chain.entryAt front (place : ℕ) = some (chain.entries.getD place 0) := by
  unfold Fatchain.entryAt
  rw [if_neg (not_lt.mpr (Int.natCast_nonneg place)), Int.toNat_natCast]

theorem clusterRun_natCast {i : ℕ} {last : ℤ} :
    clusterRun front chain limit (place : ℕ) i last = some (runLength chain limit place i last) := by
  induction limit generalizing place i last with
  | zero => rfl
  | succ limit ih =>
      unfold clusterRun runLength
      rw [entryAt_natCast]
      dsimp only
      by_cases hcount : place < chain.count
      · rw [if_pos (Int.ofNat_lt.mpr hcount), if_pos hcount]
        split
        · rfl
        · exact ih
      · rw [if_neg (fun hlt => hcount (Int.ofNat_lt.mp hlt)), if_neg hcount]

/-- What is found for a sector that does not lie in front of the chain. -/
theorem getSectorIndexRead_natCast :
    getSectorIndexRead front m (index : ℕ) need fsc =
      let limit := min ((need + fsc.secPerClust - 1) / fsc.secPerClust) m
      let place := index / fsc.secPerClust
      let entry : ℤ := if 0 < limit ∧ place < fsc.file.chain.count then
          int32 (fsc.file.chain.entries.getD place 0)
        else 0
      let n := uint32 (min ((runLength fsc.file.chain limit place 0 0 * fsc.secPerClust : ℕ) -
        ((index % fsc.secPerClust : ℕ) : ℤ)) need)
      some (int32 (fsc.dataSectorBase + (entry - 2) * fsc.secPerClust +
          (index % fsc.secPerClust : ℕ)), { fsc with
        nextSectorsOfBuffer := n
        nextBytesOfBuffer := uint32 (n * SECTORSIZE : ℕ) }) := by
  unfold getSectorIndexRead
  dsimp only
  rw [← Int.ofNat_tdiv, ← Int.ofNat_tmod, clusterRun_natCast, entryAt_natCast]
  simp only [Int.ofNat_lt, Option.getD_some]

theorem runLength_bounds {i : ℕ} {last : ℤ} : i ≤ runLength chain limit place i last ∧
    runLength chain limit place i last ≤ i + limit :=
  clusterRun_bounds (@clusterRun_natCast chain (fun _ => none) limit place i last)

theorem runLength_consecutive {i : ℕ} (hi : i ≠ 0) (hc : c < 2 ^ 32)
    (hentry : ∀ j < limit, 0 < chain.entries.getD (place + j) 0 ∧
      chain.entries.getD (place + j) 0 < 2 ^ 32) :
    ∀ j, i + j < runLength chain limit place i (int32 c) →
      chain.entries.getD (place + j) 0 = c + 1 + j := by
  induction limit generalizing place i c with
  | zero =>
      intro j hj
      change i + j < i at hj
      omega
  | succ limit ih =>
      intro j hj
      unfold runLength at hj
      dsimp only at hj
      split at hj
      · split at hj
        · omega
        · next hcount hfollows =>
          have hfirst := hentry 0 (Nat.succ_pos _)
          rw [Nat.add_zero] at hfirst
          have hnext : chain.entries.getD place 0 = c + 1 :=
            eq_succ_of_int32 hc hfirst.1 hfirst.2
              (not_ne_iff.mp fun hne => hfollows ⟨hi, hne⟩)
          cases j with
          | zero => exact hnext
          | succ j =>
              have hlater : ∀ j < limit, 0 < chain.entries.getD (place + 1 + j) 0 ∧
                  chain.entries.getD (place + 1 + j) 0 < 2 ^ 32 := by
                intro j hj
                rw [Nat.add_assoc, Nat.add_comm 1 j]
                exact hentry (j + 1) (Nat.succ_lt_succ hj)
              have hrun := ih (Nat.add_one_ne_zero i) hfirst.2 hlater j (by omega)
              rw [hnext, Nat.add_assoc, Nat.add_comm 1 j] at hrun
              omega
      · omega

/-- The clusters of the file that are read in one run are numbered without a gap. -/
theorem OnVolume.runLength_spec (h : OnVolume fsc)
    (hend : place + (limit + 1) ≤ fsc.file.chain.clusters.length) :
    ∃ i, runLength fsc.file.chain (limit + 1) place 0 0 = i ∧ 0 < i ∧ i ≤ limit + 1 ∧
      ∀ j < i, fsc.file.chain.clusters.getD (place + j) 0 =
        fsc.file.chain.clusters.getD place 0 + j := by
  have hstart : runLength fsc.file.chain (limit + 1) place 0 0 =
      runLength fsc.file.chain limit (place + 1) 1
        (int32 (fsc.file.chain.clusters.getD place 0)) := by
    rw [runLength, if_pos (lt_count (by omega)), if_neg fun hne => hne.1 rfl,
      clusters_getD (by omega)]
  have hmem : ∀ j < limit + 1, fsc.file.chain.clusters.getD (place + j) 0 ∈
      fsc.file.chain.clusters := fun j hj => getD_mem_clusters (by omega)
  have hfirst := h.entry _ (hmem 0 (Nat.succ_pos _))
  rw [Nat.add_zero] at hfirst
  have hbounds := @runLength_bounds fsc.file.chain limit (place + 1) 1
    (int32 (fsc.file.chain.clusters.getD place 0))
  rw [hstart]
  refine ⟨_, rfl, by omega, by omega, ?_⟩
  intro j hj
  cases j with
  | zero => rfl
  | succ j =>
      have hentry : ∀ j < limit, 0 < fsc.file.chain.entries.getD (place + 1 + j) 0 ∧
          fsc.file.chain.entries.getD (place + 1 + j) 0 < 2 ^ 32 := by
        intro j hj
        have hlater := h.entry _ (hmem (j + 1) (Nat.succ_lt_succ hj))
        rw [← clusters_getD (by omega), Nat.add_assoc, Nat.add_comm 1 j]
        omega
      have hrun := runLength_consecutive Nat.one_ne_zero hfirst.2 hentry j (by omega)
      rw [← clusters_getD (by omega), Nat.add_assoc, Nat.add_comm 1 j] at hrun
      omega

/-- A sector is found, with a number of sectors that stand next to each other. -/
theorem OnVolume.getSectorIndexRead_spec (h : OnVolume fsc) (hm : 0 < m) (hneed : 0 < need)
    (hshort : need < 2 ^ 32) (hend : q + need ≤ sectorCount fsc) :
    ∃ n, getSectorIndexRead front m (q : ℕ) need fsc = some (int32 (fileSector fsc q), { fsc with
        nextSectorsOfBuffer := n
        nextBytesOfBuffer := uint32 (n * SECTORSIZE : ℕ) }) ∧
      0 < n ∧ n ≤ need ∧ n ≤ m * fsc.secPerClust ∧
      ∀ i < n, fileSector fsc (q + i) = fileSector fsc q + i := by
  have hpos := h.secPerClust
  have hrest := Nat.mod_lt q hpos
  have hdiv := Nat.div_add_mod q fsc.secPerClust
  have hlt := h.cluster_lt (show q < sectorCount fsc by omega)
  have hroom : q / fsc.secPerClust + (need + fsc.secPerClust - 1) / fsc.secPerClust ≤
      fsc.file.chain.clusters.length := by
    obtain ⟨d, hd⟩ := Nat.exists_eq_add_of_le hlt.le
    have hle : (need + fsc.secPerClust - 1) / fsc.secPerClust < d + 1 := by
      rw [Nat.div_lt_iff_lt_mul hpos, Nat.succ_mul]
      unfold sectorCount at hend
      rw [hd, Nat.add_mul, Nat.mul_comm (q / _)] at hend
      omega
    omega
  have hsome : 0 < min ((need + fsc.secPerClust - 1) / fsc.secPerClust) m :=
    lt_min (Nat.div_pos (by omega) hpos) hm
  obtain ⟨limit, hlimit⟩ := Nat.exists_eq_succ_of_ne_zero hsome.ne'
  obtain ⟨i, hi, hipos, hile, hrun⟩ := @OnVolume.runLength_spec fsc limit (q / fsc.secPerClust) h
    (by omega)
  have hlong : fsc.secPerClust ≤ i * fsc.secPerClust := Nat.le_mul_of_pos_left _ hipos
  refine ⟨min (i * fsc.secPerClust - q % fsc.secPerClust) need, ?_, by omega, by omega, ?_, ?_⟩
  · have hcount : uint32 (min ((i * fsc.secPerClust : ℕ) - ((q % fsc.secPerClust : ℕ) : ℤ)) need) =
        min (i * fsc.secPerClust - q % fsc.secPerClust) need := by
      unfold uint32
      omega
    rw [getSectorIndexRead_natCast]
    dsimp only
    rw [hlimit, hi, if_pos ⟨Nat.succ_pos _, lt_count hlt⟩, hcount, int32_sector,
      ← clusters_getD hlt]
    have htwo := (h.entry _ (getD_mem_clusters hlt)).1
    have hsector : (fsc.dataSectorBase : ℤ) +
        ((fsc.file.chain.clusters.getD (q / fsc.secPerClust) 0 : ℕ) - 2) * fsc.secPerClust +
          (q % fsc.secPerClust : ℕ) = fileSector fsc q := by
      unfold fileSector
      rw [Int.natCast_add, Int.natCast_add, Int.natCast_mul, Int.natCast_sub htwo]
      rfl
    rw [hsector]
  · have hle : i * fsc.secPerClust ≤ m * fsc.secPerClust := Nat.mul_le_mul_right _ (by omega)
    omega
  · intro j hj
    have hsplit : q + j = fsc.secPerClust * (q / fsc.secPerClust) + (q % fsc.secPerClust + j) := by
      omega
    have hinside : (q % fsc.secPerClust + j) / fsc.secPerClust < i :=
      (Nat.div_lt_iff_lt_mul hpos).mpr (by omega)
    unfold fileSector
    rw [hsplit, Nat.mul_add_div hpos, Nat.mul_add_mod, hrun _ hinside]
    have htwo := (h.entry _ (getD_mem_clusters hlt)).1
    have hparts := Nat.div_add_mod' (q % fsc.secPerClust + j) fsc.secPerClust
    rw [Nat.sub_add_comm htwo, Nat.add_mul]
    omega

end Fat

end LuojiOs
