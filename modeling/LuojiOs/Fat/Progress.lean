import LuojiOs.Fat.Delivery
import LuojiOs.Support.Follow

/-!
# The rounds of a read

The length of what a round of `fat_read` copies is the extent of the buffer behind the position.
The extent is that of a run of clusters, and behind the end of the chain there is none.  A round
that copies nothing is repeated for ever.
-/

namespace LuojiOs

namespace Fat

open Devfs Climb

variable {host : Host} {device m len p q n : ℕ} {allocated : Bool} {fsc fsc' : FatSc}
  {r r' : Reading} {sector : ℤ} {front : ℤ → Option ℕ}

/-! ## The loop -/

/-- The state behind a round, with the number of bytes that are left, unless it ends the loop. -/
def nextRound (host : Host) (m : ℕ) (allocated : Bool) (s : ℕ × Reading) : Option (ℕ × Reading) :=
  if s.1 = 0 then none
  else
    match seek host m s.1 s.2 with
    | none => none
    | some (sector, r) =>
      let (res, r) := fill host allocated sector r
      if res < 0 then none
      else
        let (copylen, r) := copyOut host sector s.1 r
        some (s.1 - copylen, r)

/-- The round ends with an error, or the length that it copies is positive as an `int`.  One that
reads a place where there is no memory does neither. -/
def Advances (host : Host) (m : ℕ) (allocated : Bool) (s : ℕ × Reading) : Prop :=
  match seek host m s.1 s.2 with
  | none => False
  | some (sector, r) =>
    let (res, r) := fill host allocated sector r
    res < 0 ∨ 0 < (copyOut host sector s.1 r).1 ∧ (copyOut host sector s.1 r).1 < 2 ^ 31

/-- The number of the sector of the file that the position lies in. -/
def Reading.index (r : Reading) : ℤ := int32 (r.posn.tdiv SECTORSIZE)

/-- The bytes from the beginning of the cluster to the position. -/
def Reading.inCluster (r : Reading) : ℤ :=
  r.index.tmod r.fsc.secPerClust * SECTORSIZE + r.posn.tmod SECTORSIZE

/-- Nothing of the chain is at the position, or no sector at all is counted for the bytes that
are left, and the position is at the beginning of a cluster.  A length from 2 ^ 31 on is negative
instead. -/
structure BehindChain (s : ℕ × Reading) : Prop where
  behind : sectorsNeeded s.1 = 0 ∨
    (s.2.fsc.file.chain.count : ℤ) ≤ s.2.index.tdiv s.2.fsc.secPerClust
  atBoundary : s.2.inCluster = 0 ∨ 0 < s.2.inCluster ∧ 2 ^ 31 ≤ s.1 ∨
    sectorsNeeded s.1 = 0 ∧ 0 ≤ s.2.posn.tmod SECTORSIZE

/-- The sectors of the buffer that follow the sector of the position, and this one. -/
def sectorsBehind (sector : ℤ) (r : Reading) : ℤ :=
  r.fsc.lastSector + r.fsc.sectorsOfBuffer - sector

/-- The position is where the sectors of the buffer end, if they are counted modulo 2 ^ 23.  So many
bytes that they are negative as an `int` may follow instead. -/
def WindowEnds (sector : ℤ) (len : ℕ) (r : Reading) : Prop :=
  (SECTORSIZE : ℤ) ∣ r.posn ∧ 2 ^ 23 ∣ sectorsBehind sector r ∨
    2 ^ 31 ≤ len ∧ 2 ^ 31 ≤ uint32 (sectorsBehind sector r * SECTORSIZE - r.posn.tmod SECTORSIZE)

/-- The round makes no progress: a place is read where there is no memory, or the sector has to be
read where the chain has no cluster, or the buffer that is said to hold it ends before it. -/
def Stuck (host : Host) (m : ℕ) (allocated : Bool) (s : ℕ × Reading) : Prop :=
  match seek host m s.1 s.2 with
  | none => True
  | some (sector, r) =>
    if missed sector r.fsc then
      0 ≤ (refill host allocated sector r).1 ∧ BehindChain s
    else WindowEnds sector s.1 r

/-- The number of the bytes of the buffer is that of its sectors. -/
def Synced (fsc : FatSc) : Prop :=
  fsc.bytesOfBuffer = uint32 (fsc.sectorsOfBuffer * SECTORSIZE : ℕ)

/-- The numbers that `fat_init` and `fat_open` leave for a volume, and those of a read. -/
structure Bounded (m : ℕ) (s : ℕ × Reading) : Prop where
  secPerClust : 0 < s.2.fsc.secPerClust
  secPerClust_lt : s.2.fsc.secPerClust < 256
  bufsz : 0 < m
  bufsz_le : m ≤ 2048
  synced : Synced s.2.fsc
  len : s.1 < 2 ^ 32

/-! ## The extent of a read -/

theorem refill_fields : (refill host allocated sector r).2.fsc.bytesOfBuffer =
      r.fsc.nextBytesOfBuffer ∧
    (refill host allocated sector r).2.fsc.lastSector = sector ∧
    (refill host allocated sector r).2.posn = r.posn ∧
    (refill host allocated sector r).2.fsc.unread = r.fsc.unread :=
  ⟨rfl, rfl, rfl, rfl⟩

theorem uint32_sub_int32 {a z : ℤ} : uint32 (a - int32 z) = uint32 (a - z) := by
  unfold uint32 int32
  rw [Int.bmod_def]
  omega

/-- The bytes of the buffer behind the place of the position, as an unsigned number. -/
def restOfBuffer (sector : ℤ) (r : Reading) : ℕ :=
  uint32 (r.fsc.bytesOfBuffer - ((sector - r.fsc.lastSector) * SECTORSIZE + r.posn.tmod SECTORSIZE))

theorem copyOut_fst : (copyOut host sector len r).1 = min len (restOfBuffer sector r) :=
  congrArg (min len) uint32_sub_int32

theorem tmod_bounds (z : ℤ) {k : ℕ} (hk : 0 < k) : -(k : ℤ) < z.tmod k ∧ z.tmod k < k :=
  ⟨Int.lt_tmod_of_pos z (Int.natCast_pos.mpr hk), Int.tmod_lt_of_pos z (Int.natCast_pos.mpr hk)⟩

/-- The extent that is found, by the number of clusters in the run. -/
theorem extent_eq {index : ℤ} {need : ℕ}
    (h : getSectorIndexRead front m index need fsc = some (sector, fsc')) :
    ∃ i, clusterRun front fsc.file.chain (min ((need + fsc.secPerClust - 1) / fsc.secPerClust) m)
        (index.tdiv fsc.secPerClust) 0 0 = some i ∧
      fsc'.nextSectorsOfBuffer =
        uint32 (min ((i * fsc.secPerClust : ℕ) - index.tmod fsc.secPerClust) need) ∧
      fsc'.nextBytesOfBuffer = uint32 (fsc'.nextSectorsOfBuffer * SECTORSIZE : ℕ) := by
  unfold getSectorIndexRead at h
  dsimp only at h
  split at h
  · cases h
  · next i hrun =>
    cases h
    exact ⟨i, hrun, rfl, rfl⟩

/-- Inside of the chain there is at least one sector to read, and the buffer has room for all. -/
theorem extent_inside {index : ℤ} {need : ℕ} (hpos : 0 < fsc.secPerClust)
    (hlt : fsc.secPerClust < 256) (hm : 0 < m) (hmle : m ≤ 2048) (hneed : 0 < need)
    (hinside : index.tdiv fsc.secPerClust < fsc.file.chain.count)
    (h : getSectorIndexRead front m index need fsc = some (sector, fsc')) :
    ∃ n, fsc'.nextSectorsOfBuffer = n ∧ fsc'.nextBytesOfBuffer = n * SECTORSIZE ∧ 0 < n ∧
      n ≤ 2 ^ 20 := by
  obtain ⟨i, hrun, hsectors, hbytes⟩ := extent_eq h
  have hdiv : 0 < (need + fsc.secPerClust - 1) / fsc.secPerClust := Nat.div_pos (by omega) hpos
  obtain ⟨limit, hlimit⟩ := Nat.exists_eq_succ_of_ne_zero (lt_min hdiv hm).ne'
  rw [hlimit] at hrun
  have hle := (clusterRun_bounds hrun).2
  have hone : 1 ≤ i := by
    unfold clusterRun at hrun
    rw [if_pos hinside] at hrun
    split at hrun
    · cases hrun
    · dsimp only at hrun
      rw [if_neg fun hne => hne.1 rfl] at hrun
      exact (clusterRun_bounds hrun).1
  have hlow : fsc.secPerClust ≤ i * fsc.secPerClust := Nat.le_mul_of_pos_left _ hone
  have hhigh : i * fsc.secPerClust ≤ 2048 * 255 := Nat.mul_le_mul (by omega) (by omega)
  have hplace := tmod_bounds index hpos
  generalize index.tmod fsc.secPerClust = j at hsectors hplace
  obtain ⟨n, hn⟩ := Int.eq_ofNat_of_zero_le
    (show 0 ≤ min ((i * fsc.secPerClust : ℕ) - j) (need : ℤ) by omega)
  rw [hn, uint32_natCast (by omega)] at hsectors
  rw [hsectors, uint32_natCast (by unfold SECTORSIZE; omega)] at hbytes
  exact ⟨n, hsectors, hbytes, by omega, by omega⟩

/-- Behind the chain the extent is what is missing up to the beginning of the cluster. -/
theorem extent_behind {index : ℤ} {need : ℕ} (hpos : 0 < fsc.secPerClust)
    (hbehind : need = 0 ∨ (fsc.file.chain.count : ℤ) ≤ index.tdiv fsc.secPerClust)
    (h : getSectorIndexRead front m index need fsc = some (sector, fsc')) :
    fsc'.nextBytesOfBuffer =
      uint32 (uint32 (min (-index.tmod fsc.secPerClust) need) * SECTORSIZE : ℕ) := by
  obtain ⟨i, hrun, hsectors, hbytes⟩ := extent_eq h
  have hnone : i = 0 := by
    rcases hbehind with rfl | hcount
    · have hzero : (0 + fsc.secPerClust - 1) / fsc.secPerClust = 0 := Nat.div_eq_of_lt (by omega)
      rw [hzero, Nat.zero_min] at hrun
      exact (Option.some.inj hrun).symm
    · generalize min ((need + fsc.secPerClust - 1) / fsc.secPerClust) m = limit at hrun
      cases limit with
      | zero => exact (Option.some.inj hrun).symm
      | succ limit =>
          rw [clusterRun, if_neg (not_lt.mpr hcount)] at hrun
          exact (Option.some.inj hrun).symm
  rw [hbytes, hsectors, hnone, Nat.zero_mul, Int.natCast_zero, Int.zero_sub]

/-! ## A round -/

theorem seek_eq_some (h : seek host m len r = some (sector, r')) :
    ∃ fsc', getSectorIndexRead (host.chainFront r.posn) m r.index (sectorsNeeded len) r.fsc =
      some (sector, fsc') ∧ r' = { r with fsc := fsc' } := by
  obtain ⟨⟨sector', fsc'⟩, hfound, heq⟩ := Option.map_eq_some_iff.mp h
  obtain ⟨rfl, rfl⟩ := Prod.mk.inj heq
  exact ⟨fsc', hfound, rfl⟩

/-- What is copied after a read is what stands behind the position in its sector. -/
theorem rest_refilled : restOfBuffer sector (refill host allocated sector r).2 =
    uint32 (r.fsc.nextBytesOfBuffer - r.posn.tmod SECTORSIZE) := by
  obtain ⟨hbytes, hlast, hsame, -⟩ := @refill_fields host allocated r sector
  unfold restOfBuffer
  rw [hbytes, hlast, hsame, Int.sub_self, Int.zero_mul, Int.zero_add]

/-- The length that is copied when the sector has been read. -/
theorem refilled_advances_iff {s : ℕ × Reading} (h : Bounded m s) (hlen : 0 < s.1)
    (hfound : getSectorIndexRead front m s.2.index (sectorsNeeded s.1) s.2.fsc =
      some (sector, fsc')) {rest : ℕ}
    (hrest : rest = uint32 (fsc'.nextBytesOfBuffer - s.2.posn.tmod SECTORSIZE)) :
    0 < min s.1 rest ∧ min s.1 rest < 2 ^ 31 ↔ ¬BehindChain s := by
  have hpos := h.secPerClust
  have hlt := h.secPerClust_lt
  have hlen' := h.len
  have hsector := tmod_bounds s.2.index hpos
  have hplace := tmod_bounds s.2.posn (show 0 < SECTORSIZE by decide)
  by_cases hbehind : sectorsNeeded s.1 = 0 ∨
      (s.2.fsc.file.chain.count : ℤ) ≤ s.2.index.tdiv s.2.fsc.secPerClust
  · have hiff : BehindChain s ↔ s.2.inCluster = 0 ∨ 0 < s.2.inCluster ∧ 2 ^ 31 ≤ s.1 ∨
        sectorsNeeded s.1 = 0 ∧ 0 ≤ s.2.posn.tmod SECTORSIZE :=
      ⟨fun hchain => hchain.atBoundary, fun hboundary => ⟨hbehind, hboundary⟩⟩
    rw [extent_behind hpos hbehind hfound] at hrest
    rw [hiff]
    have hneed : sectorsNeeded s.1 = 0 → 2 ^ 31 ≤ s.1 := by
      unfold sectorsNeeded uint32 SECTORSIZE
      omega
    have hmany : sectorsNeeded s.1 < 2 ^ 23 := by
      unfold sectorsNeeded uint32 SECTORSIZE
      omega
    unfold Reading.inCluster
    generalize s.2.index.tmod s.2.fsc.secPerClust = j at hsector hrest ⊢
    generalize s.2.posn.tmod SECTORSIZE = o at hplace hrest ⊢
    generalize sectorsNeeded s.1 = need at hneed hmany hrest ⊢
    -- the number of the sectors wraps where they are counted back to the beginning of the cluster
    have hvalue : (rest : ℤ) = (min (-j) need * SECTORSIZE - o) % 2 ^ 32 := by
      rw [hrest]
      unfold uint32 SECTORSIZE
      omega
    unfold SECTORSIZE at hplace hvalue ⊢
    omega
  · have hnot : ¬BehindChain s := fun hchain => hbehind hchain.behind
    rw [not_or, not_le] at hbehind
    obtain ⟨n, -, hextent, hnpos, hnle⟩ := extent_inside hpos hlt h.bufsz h.bufsz_le
      (Nat.pos_of_ne_zero hbehind.1) hbehind.2 hfound
    rw [hextent] at hrest
    have hvalue : (rest : ℤ) = n * SECTORSIZE - s.2.posn.tmod SECTORSIZE := by
      rw [hrest]
      unfold uint32
      unfold SECTORSIZE at hplace ⊢
      omega
    refine iff_of_true ?_ hnot
    unfold SECTORSIZE at hplace hvalue
    omega

/-- The length that is copied when the sector is found in the buffer. -/
theorem found_advances_iff (hsynced : Synced r.fsc) (hlen : 0 < len) :
    0 < min len (restOfBuffer sector r) ∧ min len (restOfBuffer sector r) < 2 ^ 31 ↔
      ¬WindowEnds sector len r := by
  have hplace := tmod_bounds r.posn (show 0 < SECTORSIZE by decide)
  have hrest : restOfBuffer sector r =
      uint32 (sectorsBehind sector r * SECTORSIZE - r.posn.tmod SECTORSIZE) := by
    unfold restOfBuffer sectorsBehind
    rw [hsynced]
    unfold uint32 SECTORSIZE
    omega
  have hends : restOfBuffer sector r = 0 ↔
      (SECTORSIZE : ℤ) ∣ r.posn ∧ 2 ^ 23 ∣ sectorsBehind sector r := by
    rw [hrest, Int.dvd_iff_tmod_eq_zero]
    unfold uint32
    unfold SECTORSIZE at hplace ⊢
    omega
  unfold WindowEnds
  rw [← hends, ← hrest]
  omega

/-- A round advances exactly if it is not stuck. -/
theorem advances_iff {s : ℕ × Reading} (h : Bounded m s) (hlen : 0 < s.1) :
    Advances host m allocated s ↔ ¬Stuck host m allocated s := by
  unfold Advances Stuck fill
  cases hseek : seek host m s.1 s.2 with
  | none => exact iff_of_false id fun hnot => hnot trivial
  | some found =>
      obtain ⟨sector, r⟩ := found
      obtain ⟨fsc', hfound, rfl⟩ := seek_eq_some hseek
      dsimp only
      cases hmissed : missed sector fsc' with
      | true =>
          have hmiss := refilled_advances_iff h hlen hfound rfl
          rw [if_pos rfl, if_pos rfl, copyOut_fst, rest_refilled]
          dsimp only
          rw [hmiss]
          constructor
          · rintro (herror | hgo) ⟨hread, hchain⟩
            · exact absurd hread (not_le.mpr herror)
            · exact hgo hchain
          · intro hnot
            by_cases hread : 0 ≤ (refill host allocated sector { s.2 with fsc := fsc' }).1
            · exact Or.inr fun hchain => hnot ⟨hread, hchain⟩
            · exact Or.inl (not_le.mp hread)
      | false =>
          have hsynced : Synced fsc' := by
            obtain ⟨n, rfl⟩ := getSectorIndexRead_eq hfound
            exact h.synced
          have hhit := @found_advances_iff s.1 { s.2 with fsc := fsc' } sector hsynced hlen
          have hno : ¬(false = true) := Bool.false_ne_true
          rw [if_neg hno, if_neg hno, copyOut_fst]
          dsimp only
          rw [hhit, or_iff_right (lt_irrefl 0)]

/-! ## All rounds -/

theorem seek_same (h : seek host m len r = some (sector, r')) :
    r'.fsc.unread = r.fsc.unread ∧ r'.posn = r.posn ∧ (Synced r.fsc → Synced r'.fsc) := by
  obtain ⟨fsc', hfound, rfl⟩ := seek_eq_some h
  obtain ⟨n, rfl⟩ := getSectorIndexRead_eq hfound
  exact ⟨rfl, rfl, fun hsynced => hsynced⟩

theorem fill_same : (fill host allocated sector r).2.fsc.unread = r.fsc.unread ∧
    (fill host allocated sector r).2.posn = r.posn := by
  unfold fill
  split
  · exact ⟨rfl, rfl⟩
  · exact ⟨rfl, rfl⟩

theorem nextRound_eq_some {s s' : ℕ × Reading} (h : nextRound host m allocated s = some s') :
    s.1 ≠ 0 ∧ ∃ sector r₁ res r₂, seek host m s.1 s.2 = some (sector, r₁) ∧
      fill host allocated sector r₁ = (res, r₂) ∧ 0 ≤ res ∧
      s' = (s.1 - (copyOut host sector s.1 r₂).1, (copyOut host sector s.1 r₂).2) := by
  unfold nextRound at h
  split at h
  · cases h
  · next hlen =>
    split at h
    · cases h
    · next sector r₁ hseek =>
      dsimp only at h
      split at h
      · cases h
      · next hres =>
        cases h
        exact ⟨hlen, sector, r₁, _, _, hseek, rfl, not_lt.mp hres, rfl⟩

/-- A round changes nothing of the volume but its buffer, and moves the position by what it
copies. -/
theorem nextRound_same {s s' : ℕ × Reading} (h : nextRound host m allocated s = some s') :
    s'.2.fsc.unread = s.2.fsc.unread ∧
      ∃ k ≤ s.1, s'.1 = s.1 - k ∧ s'.2.posn = s.2.posn + k := by
  obtain ⟨-, sector, r₁, res, r₂, hseek, hfill, -, rfl⟩ := nextRound_eq_some h
  obtain ⟨hfound, hat, -⟩ := seek_same hseek
  have hsame := @fill_same host allocated r₁ sector
  rw [hfill] at hsame
  refine ⟨hsame.1.trans hfound, (copyOut host sector s.1 r₂).1, ?_, rfl, ?_⟩
  · rw [copyOut_fst]
    exact min_le_left _ _
  · rw [← hat, ← hsame.2]
    rfl

theorem secPerClust_of_unread (h : fsc'.unread = fsc.unread) :
    fsc'.secPerClust = fsc.secPerClust := by
  change fsc'.unread.secPerClust = fsc.unread.secPerClust
  rw [h]

/-- The next extent is that of whole sectors, so that the buffer still is after a read. -/
theorem nextRound_synced {s s' : ℕ × Reading} (h : Synced s.2.fsc)
    (hnext : nextRound host m allocated s = some s') : Synced s'.2.fsc := by
  obtain ⟨-, sector, r₁, res, r₂, hseek, hfill, -, rfl⟩ := nextRound_eq_some hnext
  change Synced r₂.fsc
  unfold fill at hfill
  split at hfill
  · obtain ⟨fsc', hfound, rfl⟩ := seek_eq_some hseek
    obtain ⟨n, rfl⟩ := getSectorIndexRead_eq hfound
    rw [show r₂ = _ from (congrArg Prod.snd hfill).symm]
    rfl
  · obtain rfl : r₁ = r₂ := congrArg Prod.snd hfill
    exact (seek_same hseek).2.2 h

theorem Bounded.next {s s' : ℕ × Reading} (h : Bounded m s)
    (hnext : nextRound host m allocated s = some s') : Bounded m s' := by
  obtain ⟨hunread, k, hk, hleft, -⟩ := nextRound_same hnext
  have hclust := secPerClust_of_unread hunread
  have hlen := h.len
  exact ⟨hclust.symm ▸ h.secPerClust, hclust.symm ▸ h.secPerClust_lt, h.bufsz, h.bufsz_le,
    nextRound_synced h.synced hnext, by omega⟩

theorem Bounded.visits {s s' : ℕ × Reading} (h : Bounded m s)
    (hvisits : Visits (nextRound host m allocated) s s') : Bounded m s' := by
  induction hvisits with
  | refl => exact h
  | tail _ hnext ih => exact ih.next hnext

/-- If every round advances, as many rounds as there are bytes are enough. -/
theorem fatReadFrom_ends {rounds : ℕ} (hrounds : len ≤ rounds)
    (hadvances : ∀ s, Visits (nextRound host m allocated) (len, r) s → s.1 ≠ 0 →
      Advances host m allocated s) :
    ∃ out, fatReadFrom host m allocated rounds len r = some out := by
  induction rounds generalizing len r with
  | zero =>
      obtain rfl : len = 0 := by omega
      exact ⟨(0, r), rfl⟩
  | succ rounds ih =>
      by_cases hlen : len = 0
      · refine ⟨(0, r), ?_⟩
        rw [fatReadFrom, if_pos hlen]
      have hfirst := hadvances (len, r) Relation.ReflTransGen.refl hlen
      unfold Advances at hfirst
      rw [fatReadFrom_succ hlen]
      cases hseek : seek host m len r with
      | none =>
          rw [hseek] at hfirst
          exact hfirst.elim
      | some found =>
          rw [hseek] at hfirst
          dsimp only at hfirst ⊢
          split
          · exact ⟨_, rfl⟩
          · next hres =>
            have hpos := (hfirst.resolve_left hres).1
            refine ih (by omega) fun s hs => hadvances s (Relation.ReflTransGen.head ?_ hs)
            unfold nextRound
            rw [if_neg hlen, hseek]
            dsimp only
            rw [if_neg hres]

/-! ## `fat_read` -/

variable {fd : ℤ} {w : World} {self : ℕ}

/-- The state in which the loop of `fat_read` is entered. -/
def loopStart (fd : ℤ) (fsc : FatSc) (len : ℕ) (w : World) : ℕ × Reading :=
  (lengthRead fsc (w.file fd).posn len, ⟨fsc, w.devs, (w.file fd).posn, [], w.requests⟩)

/-- The call comes to a round of the loop in the state `s`. -/
structure InRound (host : Host) (fd : ℤ) (fsc : FatSc) (len : ℕ) (w : World)
    (s : ℕ × Reading) : Prop where
  inFile : (w.file fd).posn < fsc.file.fileSize
  left : s.1 ≠ 0
  visits : Visits (nextRound host w.maxBufszClusts (w.heap.isLive fsc.lastSectorBlock))
    (loopStart fd fsc len w) s

/-- Every round of the call makes progress or ends with an error, and the call comes to its
end. -/
structure ReadAdvances (host : Host) (fd : ℤ) (fsc : FatSc) (len : ℕ) (w : World) : Prop where
  rounds : ∀ s, InRound host fd fsc len w s →
    Advances host w.maxBufszClusts (w.heap.isLive fsc.lastSectorBlock) s
  ends : ∃ out, fatRead host fd len w = some out

/-- A volume that `fat_open` has left, or reads of the file. -/
structure ReadBounded (fd : ℤ) (fsc : FatSc) (len : ℕ) (w : World) : Prop where
  secPerClust : 0 < fsc.secPerClust
  secPerClust_lt : fsc.secPerClust < 256
  bufsz : 0 < w.maxBufszClusts
  bufsz_le : w.maxBufszClusts ≤ 2048
  synced : Synced fsc
  len : len < 2 ^ 32

theorem ReadBounded.start (h : ReadBounded fd fsc len w) :
    Bounded w.maxBufszClusts (loopStart fd fsc len w) := by
  refine ⟨h.secPerClust, h.secPerClust_lt, h.bufsz, h.bufsz_le, h.synced, ?_⟩
  have hlen := h.len
  unfold loopStart lengthRead uint32
  dsimp only
  split <;> omega

/-- The buffer is empty, or its numbers fit together. -/
def BufferNumbers (fsc : FatSc) : Prop :=
  fsc.lastSector = -1 ∨ 0 ≤ fsc.lastSector ∧ fsc.sectorsOfBuffer ≤ 2 ^ 20 ∧
    fsc.bytesOfBuffer = fsc.sectorsOfBuffer * SECTORSIZE

/-- The clusters of the chain lie on the volume, whose sectors have numbers of 31 bits. -/
def ChainOnVolume (fsc : FatSc) : Prop :=
  ∀ i < fsc.file.chain.count, 2 ≤ fsc.file.chain.entries.getD i 0 ∧
    fsc.dataSectorBase + (fsc.file.chain.entries.getD i 0 - 1) * fsc.secPerClust ≤ 2 ^ 31

/-- What is left of the read lies inside of the chain. -/
structure Covered (m : ℕ) (s : ℕ × Reading) : Prop where
  bounded : Bounded m s
  posn : 0 ≤ s.2.posn
  short : s.2.posn.toNat + s.1 < 2 ^ 31
  inside : s.2.posn.toNat + s.1 ≤
    s.2.fsc.file.chain.count * (s.2.fsc.secPerClust * SECTORSIZE)
  numbers : BufferNumbers s.2.fsc
  onVolume : ChainOnVolume s.2.fsc

theorem sectorsNeeded_pos (hlen : 0 < len) (hshort : len < 2 ^ 31) : 0 < sectorsNeeded len := by
  unfold sectorsNeeded uint32 SECTORSIZE
  omega

/-- The sector of a position inside of the chain. -/
theorem sector_nonneg {m index need : ℕ} (h : ChainOnVolume fsc) (hpos : 0 < fsc.secPerClust)
    (hm : 0 < m) (hneed : 0 < need) (hinside : index / fsc.secPerClust < fsc.file.chain.count) :
    ∃ sector fsc', getSectorIndexRead front m (index : ℕ) need fsc = some (sector, fsc') ∧
      0 ≤ sector ∧ sector < 2 ^ 31 := by
  obtain ⟨htwo, hend⟩ := h _ hinside
  have hlimit : 0 < min ((need + fsc.secPerClust - 1) / fsc.secPerClust) m :=
    lt_min (Nat.div_pos (by omega) hpos) hm
  have hrest := Nat.mod_lt index hpos
  rw [getSectorIndexRead_natCast]
  refine ⟨_, _, rfl, ?_⟩
  rw [if_pos ⟨hlimit, hinside⟩, int32_sector]
  generalize fsc.file.chain.entries.getD (index / fsc.secPerClust) 0 = e at htwo hend
  obtain ⟨d, rfl⟩ := Nat.exists_eq_add_of_le htwo
  rw [show 2 + d - 1 = d + 1 by omega, Nat.add_mul, Nat.one_mul] at hend
  have hsector : (fsc.dataSectorBase : ℤ) + (((2 + d : ℕ) : ℤ) - 2) * fsc.secPerClust +
      (index % fsc.secPerClust : ℕ) =
        (fsc.dataSectorBase + d * fsc.secPerClust + index % fsc.secPerClust : ℕ) := by
    rw [show ((2 + d : ℕ) : ℤ) - 2 = d by omega]
    simp only [Int.natCast_add, Int.natCast_mul]
  rw [hsector, int32_eq_of_lt (Int.natCast_nonneg _) (by omega)]
  omega

theorem index_natCast (hposn : r.posn = p) (hshort : p < 2 ^ 31) :
    r.index = (p / SECTORSIZE : ℕ) := by
  unfold Reading.index
  rw [hposn, ← Int.ofNat_tdiv]
  exact int32_eq_of_lt (Int.natCast_nonneg _) (by unfold SECTORSIZE; omega)

/-- The sector of the position is found. -/
theorem Covered.seek_spec (h : Covered m (len, r)) (hlen : 0 < len) :
    ∃ sector fsc', getSectorIndexRead (host.chainFront r.posn) m r.index (sectorsNeeded len) r.fsc =
        some (sector, fsc') ∧ seek host m len r = some (sector, { r with fsc := fsc' }) ∧
      r.index.tdiv r.fsc.secPerClust < r.fsc.file.chain.count ∧ 0 ≤ sector ∧ sector < 2 ^ 31 := by
  obtain ⟨p, hposn⟩ := Int.eq_ofNat_of_zero_le h.posn
  have hinside := h.inside
  have hshort := h.short
  have hpos := h.bounded.secPerClust
  dsimp only at hposn hinside hshort hpos
  rw [hposn, Int.toNat_natCast] at hinside hshort
  have hplace : p / SECTORSIZE / r.fsc.secPerClust < r.fsc.file.chain.count := by
    rw [Nat.div_div_eq_div_mul, Nat.mul_comm SECTORSIZE]
    refine (Nat.div_lt_iff_lt_mul (Nat.mul_pos hpos (by decide))).mpr ?_
    omega
  have hindex : r.index = (p / SECTORSIZE : ℕ) := index_natCast hposn (by omega)
  obtain ⟨sector, fsc', hfound, hnonneg, hlt⟩ := @sector_nonneg r.fsc (host.chainFront r.posn) m
    (p / SECTORSIZE) (sectorsNeeded len) h.onVolume hpos h.bounded.bufsz
    (sectorsNeeded_pos hlen (by omega)) hplace
  rw [← hindex] at hfound
  refine ⟨sector, fsc', hfound, ?_, ?_, hnonneg, hlt⟩
  · exact congrArg (Option.map _) hfound
  · rw [hindex, ← Int.ofNat_tdiv]
    exact Int.ofNat_lt.mpr hplace

/-- A sector that is found in the buffer has bytes there. -/
theorem rest_pos_of_hit (hnumbers : BufferNumbers r.fsc) (hsector : 0 ≤ sector)
    (hlt : sector < 2 ^ 31) (hit : missed sector r.fsc = false) :
    0 < restOfBuffer sector r ∧ restOfBuffer sector r < 2 ^ 31 := by
  unfold missed at hit
  rw [decide_eq_false_iff_not, not_or, not_or] at hit
  obtain ⟨hsome, hbefore, hbehind⟩ := hit
  obtain ⟨hlast, hsectors, hbytes⟩ := hnumbers.resolve_left hsome
  unfold restOfBuffer
  rw [hbytes]
  have hplace := tmod_bounds r.posn (show 0 < SECTORSIZE by decide)
  generalize r.posn.tmod SECTORSIZE = o at hplace
  unfold uint32 at hbehind ⊢
  unfold SECTORSIZE at hplace ⊢
  omega

theorem Covered.not_stuck (h : Covered m (len, r)) (hlen : 0 < len) :
    ¬Stuck host m allocated (len, r) := by
  obtain ⟨sector, fsc', hfound, hseek, hplace, hsector, hlt⟩ := @Covered.seek_spec host m len r h
    hlen
  have hshort := h.short
  dsimp only at hshort
  unfold Stuck
  rw [hseek]
  dsimp only
  cases hmissed : missed sector fsc' with
  | true =>
      rw [if_pos rfl]
      intro hstuck
      rcases hstuck.2.behind with hzero | hle
      · exact (sectorsNeeded_pos hlen (by omega)).ne' hzero
      · exact absurd hplace (not_lt.mpr hle)
  | false =>
      rw [if_neg Bool.false_ne_true]
      have hsynced : Synced fsc' := (seek_same hseek).2.2 h.bounded.synced
      have hnumbers : BufferNumbers fsc' := by
        obtain ⟨n, rfl⟩ := getSectorIndexRead_eq hfound
        exact h.numbers
      have hrest := @rest_pos_of_hit { r with fsc := fsc' } sector hnumbers hsector hlt hmissed
      exact (found_advances_iff hsynced hlen).mp ⟨by omega, by omega⟩

theorem ChainOnVolume.of_unread (h : ChainOnVolume fsc) (hunread : fsc'.unread = fsc.unread) :
    ChainOnVolume fsc' := by
  change ChainOnVolume fsc'.unread
  rw [hunread]
  exact h

/-- A sector that was read is in the buffer, with what was read behind it. -/
theorem Covered.numbers_fill (h : Covered m (len, r)) (hlen : 0 < len) {r₁ : Reading}
    (hseek : seek host m len r = some (sector, r₁)) :
    BufferNumbers (fill host allocated sector r₁).2.fsc := by
  obtain ⟨sector', fsc', hfound, hseek', hplace, hsector, -⟩ := @Covered.seek_spec host m len r h
    hlen
  obtain ⟨rfl, rfl⟩ := Prod.mk.inj (Option.some.inj (hseek'.symm.trans hseek))
  have hshort := h.short
  dsimp only at hshort
  obtain ⟨n, hsectors, hbytes, -, hnle⟩ := extent_inside h.bounded.secPerClust
    h.bounded.secPerClust_lt h.bounded.bufsz h.bounded.bufsz_le
    (sectorsNeeded_pos hlen (by omega)) hplace hfound
  unfold fill
  split
  · refine Or.inr ⟨hsector, hsectors.trans_le hnle, ?_⟩
    exact hbytes.trans (congrArg (· * SECTORSIZE) hsectors.symm)
  · obtain ⟨k, rfl⟩ := getSectorIndexRead_eq hfound
    exact h.numbers

theorem Covered.next {s s' : ℕ × Reading} (h : Covered m s)
    (hnext : nextRound host m allocated s = some s') : Covered m s' := by
  obtain ⟨hunread, k, hk, hleft, hposn⟩ := nextRound_same hnext
  obtain ⟨hlen, sector, r₁, res, r₂, hseek, hfill, -, hs'⟩ := nextRound_eq_some hnext
  have hnumbers := @Covered.numbers_fill host m s.1 allocated s.2 sector h
    (Nat.pos_of_ne_zero hlen) r₁ hseek
  rw [hfill] at hnumbers
  have hnonneg := h.posn
  have hinside := h.inside
  have hshort := h.short
  refine ⟨h.bounded.next hnext, by omega, by omega, ?_, ?_, h.onVolume.of_unread hunread⟩
  · rw [file_of_unread hunread, secPerClust_of_unread hunread]
    omega
  · rw [hs']
    exact hnumbers

theorem Covered.visits {s s' : ℕ × Reading} (h : Covered m s)
    (hvisits : Visits (nextRound host m allocated) s s') : Covered m s' := by
  induction hvisits with
  | refl => exact h
  | tail _ hnext ih => exact ih.next hnext

/-- A chain that is long enough for the file, on a volume whose numbers are in range. -/
structure Enough (fsc : FatSc) : Prop where
  enough : fsc.file.fileSize ≤ fsc.file.chain.count * (fsc.secPerClust * SECTORSIZE)
  onVolume : ChainOnVolume fsc
  numbers : BufferNumbers fsc
  fileSize_lt : fsc.file.fileSize < 2 ^ 31

/-- No round of a read is stuck if the chain is long enough for the file. -/
theorem Enough.not_stuck (h : Enough fsc) (hbounded : ReadBounded fd fsc len w)
    (hposn : 0 ≤ (w.file fd).posn) {s : ℕ × Reading} (hs : InRound host fd fsc len w s) :
    ¬Stuck host w.maxBufszClusts (w.heap.isLive fsc.lastSectorBlock) s := by
  have henough := h.enough
  have hsize := h.fileSize_lt
  have hin := hs.inFile
  have hlength : (w.file fd).posn.toNat + lengthRead fsc (w.file fd).posn len ≤
      fsc.file.fileSize := by
    unfold lengthRead uint32
    split <;> omega
  have hstart : Covered w.maxBufszClusts (loopStart fd fsc len w) := by
    refine ⟨hbounded.start, hposn, ?_, hlength.trans henough, h.numbers, h.onVolume⟩
    unfold loopStart
    dsimp only
    omega
  exact (hstart.visits hs.visits).not_stuck (Nat.pos_of_ne_zero hs.left)

theorem stuck_of_missed {s : ℕ × Reading} (hseek : seek host m s.1 s.2 = some (sector, r))
    (hmissed : missed sector r.fsc = true) (hread : 0 ≤ (refill host allocated sector r).1)
    (hbehind : BehindChain s) : Stuck host m allocated s := by
  unfold Stuck
  rw [hseek]
  dsimp only
  rw [if_pos hmissed]
  exact ⟨hread, hbehind⟩

/-- A file of 600 bytes in one cluster of 512 bytes. -/
def shortFsc : FatSc := { smallFsc with
  file := ⟨[], [], 0, 5, 600, ⟨5, [5, 0xfff], 1, some 1⟩⟩ }

/-- The position is at the end of the cluster. -/
def shortWorld : World := { smallWorld.setPosn 0 512 with myfile := fun _ => some (7, shortFsc) }

end Fat

end LuojiOs
