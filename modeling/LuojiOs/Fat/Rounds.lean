import LuojiOs.Fat.Walks

/-!
# What a read of a file leaves alone

The rounds of `fat_read` move the buffer of the volume along the file.  The file itself, and
what is known of the volume, stay as they are.
-/

namespace LuojiOs

namespace Fat

open Devfs

variable {host : Host} {allocated : Bool} {r r' r'' : Reading} {sector : ℤ} {len m : ℕ}

/-- A volume, up to its buffer. -/
def FatSc.unread (fsc : FatSc) : FatSc :=
  { fsc with
    lastSector := 0
    lastSectorBuffer := []
    bytesOfBuffer := 0
    sectorsOfBuffer := 0
    nextBytesOfBuffer := 0
    nextSectorsOfBuffer := 0 }

structure Reads (host : Host) (allocated : Bool) (r r' : Reading) : Prop where
  unread : r'.fsc.unread = r.fsc.unread
  devs : Moved host.usb r.devs r'.devs
  requests : ∃ new, r'.requests = new ++ r.requests ∧
    ∀ q ∈ new, q.fd = r.fsc.fd ∧ q.allocated = allocated

theorem Reads.fd (h : Reads host allocated r r') : r'.fsc.fd = r.fsc.fd := by
  change r'.fsc.unread.fd = r.fsc.unread.fd
  rw [h.unread]

theorem Reads.refl : Reads host allocated r r :=
  ⟨rfl, .refl, [], rfl, fun _ h => absurd h List.not_mem_nil⟩

theorem Reads.trans (h : Reads host allocated r r') (h' : Reads host allocated r' r'') :
    Reads host allocated r r'' := by
  refine ⟨h'.unread.trans h.unread, h.devs.trans h'.devs, ?_⟩
  obtain ⟨new, heq, hnew⟩ := h.requests
  obtain ⟨new', heq', hnew'⟩ := h'.requests
  refine ⟨new' ++ new, ?_, ?_⟩
  · rw [heq', heq, List.append_assoc]
  · intro q hq
    rcases List.mem_append.mp hq with hq | hq
    · rw [← h.fd]
      exact hnew' q hq
    · exact hnew q hq

theorem getSectorIndexRead_eq {front : ℤ → Option ℕ} {fsc fsc' : FatSc} {index : ℤ} {need : ℕ}
    (h : getSectorIndexRead front m index need fsc = some (sector, fsc')) :
    ∃ n, fsc' = { fsc with
      nextSectorsOfBuffer := n
      nextBytesOfBuffer := uint32 (n * SECTORSIZE : ℕ) } := by
  unfold getSectorIndexRead at h
  dsimp only at h
  split at h
  · cases h
  · cases h
    exact ⟨_, rfl⟩

theorem getSectorIndexRead_unread {front : ℤ → Option ℕ} {fsc fsc' : FatSc} {index : ℤ}
    {need : ℕ} (h : getSectorIndexRead front m index need fsc = some (sector, fsc')) :
    fsc'.unread = fsc.unread := by
  obtain ⟨n, rfl⟩ := getSectorIndexRead_eq h
  rfl

/-- The volume once its buffer is to hold what stands from a sector on. -/
def FatSc.loadedFrom (sector : ℤ) (fsc : FatSc) : FatSc :=
  { fsc with
    sectorsOfBuffer := fsc.nextSectorsOfBuffer
    bytesOfBuffer := fsc.nextBytesOfBuffer
    lastSector := sector }

def FatSc.request (allocated : Bool) (fsc : FatSc) : Request :=
  ⟨fsc.fd, uint32 (SECTORSIZE * int32 fsc.nextSectorsOfBuffer), fsc.lastSectorBuffer.length,
    allocated⟩

theorem refill_eq {res : ℤ} {bytes : List (BitVec 8)} {devs : Devs}
    (h : readsector host (r.fsc.loadedFrom sector) sector (int32 r.fsc.nextSectorsOfBuffer)
      ⟨host.sectorBufferAddr, r.fsc.lastSectorBuffer, 0⟩ r.devs = (res, bytes, devs)) :
    refill host allocated sector r = (res, { r with
      fsc := { r.fsc.loadedFrom sector with lastSectorBuffer := bytes }
      devs := devs
      requests := r.fsc.request allocated :: r.requests }) := by
  unfold FatSc.loadedFrom at h
  unfold refill
  simp only [h]
  rfl

theorem refill_reads : Reads host allocated r (refill host allocated sector r).2 := by
  rcases hread : readsector host (r.fsc.loadedFrom sector) sector (int32 r.fsc.nextSectorsOfBuffer)
    ⟨host.sectorBufferAddr, r.fsc.lastSectorBuffer, 0⟩ r.devs with ⟨res, bytes, devs⟩
  rw [refill_eq hread]
  refine ⟨rfl, ?_, [r.fsc.request allocated], rfl, ?_⟩
  · have hmoved := @readsector_moved host r.devs (r.fsc.loadedFrom sector) sector
      (int32 r.fsc.nextSectorsOfBuffer) ⟨host.sectorBufferAddr, r.fsc.lastSectorBuffer, 0⟩
    rw [hread] at hmoved
    exact hmoved
  · intro q hq
    rw [List.mem_singleton] at hq
    rw [hq]
    exact ⟨rfl, rfl⟩

theorem copyOut_reads : Reads host allocated r (copyOut host sector len r).2 :=
  ⟨rfl, .refl, [], rfl, fun _ h => absurd h List.not_mem_nil⟩

theorem fatReadFrom_reads {rounds : ℕ} {res : ℤ}
    (h : fatReadFrom host m allocated rounds len r = some (res, r')) : Reads host allocated r r' := by
  induction rounds generalizing len r with
  | zero =>
      unfold fatReadFrom at h
      split at h
      · cases h
        exact .refl
      · cases h
  | succ rounds ih =>
      unfold fatReadFrom at h
      split at h
      · cases h
        exact .refl
      · dsimp only at h
        split at h
        · cases h
        · next sector fsc hfound =>
          have hset : Reads host allocated r { r with fsc := fsc } :=
            ⟨getSectorIndexRead_unread hfound, .refl, [], rfl,
              fun _ h => absurd h List.not_mem_nil⟩
          have hfill : Reads host allocated r
              (if missed sector fsc then refill host allocated sector { r with fsc := fsc }
                else (0, { r with fsc := fsc })).2 := by
            split
            · exact hset.trans refill_reads
            · exact hset
          generalize (if missed sector fsc then
              refill host allocated sector { r with fsc := fsc } else (0, { r with fsc := fsc })) =
            filled at h hfill
          split at h
          · cases h
            exact hfill
          · exact hfill.trans (copyOut_reads.trans (ih h))

end Fat

end LuojiOs
