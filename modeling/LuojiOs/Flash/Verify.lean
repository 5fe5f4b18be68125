import LuojiOs.Flash.SpiFlash

/-!
# Verification of the flash

`fl_verify_device` for the three widths of the bus.  Its loop is left at the first difference only
if the bit 0 of `verbose` is set, and what it returns is the result of the last comparison.  The
flash is read where it is mapped.  What is printed, and what is erased when the answer to the
question is yes, are left out here.
-/

namespace LuojiOs

namespace SpiFlash

/-- The types of the bus that `fl_verify_device` handles. -/
inductive FlBus
  | bus8
  | bus16
  | bus32
  deriving DecidableEq

/-- The bytes of one comparison. -/
def FlBus.bytes : FlBus → ℕ
  | bus8 => 1
  | bus16 => 2
  | bus32 => 4

/-- `struct fl_map`, with the fields of the bus. -/
structure FlBusMap extends FlMap where
  flMapWidth : ℕ
  flMapBus : FlBus

/-- The map in the table, for a bus of 8 bits. -/
def tgtBusMap : FlBusMap := ⟨⟨0xbfc00000, 0x80000, 0⟩, 1, .bus8⟩

/-- The comparison of one cycle of the bus. -/
def compareUnit (m : Bytes) (bus : FlBus) (flBase dataBase : ℕ) : Bool :=
  m.loadLE flBase bus.bytes = m.loadLE dataBase bus.bytes

/-- `verbose & !ok` -/
def stops (verbose : BitVec 32) (ok : Bool) : Bool := verbose &&& (if ok then 0 else 1) ≠ 0

/-- The loop of `fl_verify_device`, with the variable `ok`, which has no value at first. -/
def verifyFrom (m : Bytes) (map : FlBusMap) (dataSize : ℤ) (verbose : BitVec 32) :
    ℕ → ℤ → ℕ → ℕ → Option Bool → Option Bool
  | 0, _, _, _, ok => ok
  | rounds + 1, i, flBase, dataBase, ok =>
    if i < dataSize then
      let ok := compareUnit m map.flMapBus flBase dataBase
      if stops verbose ok then some ok
      else verifyFrom m map dataSize verbose rounds (i + map.flMapWidth)
        (flBase + map.flMapBus.bytes) (dataBase + map.flMapBus.bytes) (some ok)
    else ok

/-- `fl_verify_device`, for the device and the map that `fl_devident` finds.  There is no result
without a map, and where `ok` has no value. -/
def flVerify (m : Bytes) (dev : Option FlDevice) (map : Option FlBusMap) (flBase dataBase : ℕ)
    (dataSize : ℤ) (verbose : BitVec 32) : Option ℤ :=
  match dev, map with
  | none, _ => some (-3)
  | some _, none => none
  | some _, some map =>
    if dataSize = -1 ∨ dataBase = 0xffffffff then some (-4)
    else if (map.flMapSize : ℤ) < (dataSize + (flBase - map.flMapBase)) % 2 ^ 32 then some (-4)
    else (verifyFrom m map dataSize verbose dataSize.toNat 0 flBase dataBase none).map fun ok =>
      if ok then 1 else 0

variable {m : Bytes} {map : FlBusMap} {verbose : BitVec 32} {flBase dataBase n a b k rounds : ℕ}
  {i : ℤ} {ok : Option Bool}

theorem loadLE_eq_iff : m.loadLE a k = m.loadLE b k ↔ ∀ j < k, m (a + j) = m (b + j) := by
  induction k generalizing a b with
  | zero => exact iff_of_true rfl nofun
  | succ k ih =>
      have ha := (m a).isLt
      have hb := (m b).isLt
      constructor
      · intro heq j hj
        unfold Bytes.loadLE at heq
        have hfirst : m a = m b := BitVec.eq_of_toNat_eq (by omega)
        have hrest : m.loadLE (a + 1) k = m.loadLE (b + 1) k := by omega
        cases j with
        | zero => exact hfirst
        | succ j =>
            have hnext := ih.mp hrest j (Nat.lt_of_succ_lt_succ hj)
            rwa [Nat.add_right_comm, Nat.add_right_comm b] at hnext
      · exact fun h => Bytes.loadLE_congr fun j hj => h j hj

/-- Whether the bytes are the same. -/
def Same (m : Bytes) (a b n : ℕ) : Prop := ∀ j < n, m (a + j) = m (b + j)

instance : Decidable (Same m a b n) := Nat.decidableBallLT n _

theorem compareUnit_eq : compareUnit m map.flMapBus a b = decide (Same m a b map.flMapBus.bytes) :=
  decide_eq_decide.mpr loadLE_eq_iff

theorem same_add : Same m a b (k + n) ↔ Same m a b k ∧ Same m (a + k) (b + k) n := by
  constructor
  · intro h
    refine ⟨fun j hj => h j (by omega), fun j hj => ?_⟩
    have hat := h (k + j) (by omega)
    rwa [← Nat.add_assoc, ← Nat.add_assoc] at hat
  · rintro ⟨hfirst, hrest⟩ j hj
    by_cases hlt : j < k
    · exact hfirst j hlt
    · have hat := hrest (j - k) (by omega)
      rwa [Nat.add_assoc, Nat.add_assoc, Nat.add_sub_of_le (Nat.le_of_not_lt hlt)] at hat

/-- The last `w` bytes. -/
theorem same_last {w : ℕ} (hn : n = (k + 1) * w) : Same m (a + k * w) (b + k * w) w ↔
    ∀ j < n, n - w ≤ j → m (a + j) = m (b + j) := by
  rw [Nat.succ_mul] at hn
  constructor
  · intro hsame j hj hle
    have hat := hsame (j - k * w) (by omega)
    rwa [Nat.add_assoc, Nat.add_assoc, Nat.add_sub_of_le (by omega)] at hat
  · intro hlast j hj
    rw [Nat.add_assoc, Nat.add_assoc]
    exact hlast _ (by omega) (by omega)

/-! ## The loop -/

/-- Only the bit 0 of `verbose` counts. -/
theorem stops_iff {ok : Bool} :
    stops verbose ok = true ↔ ok = false ∧ verbose.getLsbD 0 = true := by
  unfold stops
  cases ok with
  | true => simp
  | false =>
      have hone : verbose &&& (if false = true then 0 else 1) =
          BitVec.setWidth 32 (BitVec.ofBool (verbose.getLsbD 0)) :=
        BitVec.and_one_eq_setWidth_ofBool_getLsbD
      rw [hone]
      cases verbose.getLsbD 0 <;> decide

section Loop

variable {dataSize : ℤ}

theorem verifyFrom_done (h : dataSize ≤ i) :
    verifyFrom m map dataSize verbose rounds i a b ok = ok := by
  cases rounds with
  | zero => rfl
  | succ rounds => exact if_neg (Int.not_lt.mpr h)

theorem verifyFrom_succ (h : i < dataSize) :
    verifyFrom m map dataSize verbose (rounds + 1) i a b ok =
      if stops verbose (decide (Same m a b map.flMapBus.bytes)) then
        some (decide (Same m a b map.flMapBus.bytes))
      else verifyFrom m map dataSize verbose rounds (i + map.flMapWidth)
        (a + map.flMapBus.bytes) (b + map.flMapBus.bytes)
        (some (decide (Same m a b map.flMapBus.bytes))) := by
  conv_lhs => unfold verifyFrom
  rw [if_pos h, compareUnit_eq]

theorem FlBus.bytes_pos (bus : FlBus) : 0 < bus.bytes := by cases bus <;> decide

/-- The first difference is remembered if the loop is left there. -/
theorem verifyFrom_odd (hwidth : map.flMapWidth = map.flMapBus.bytes)
    (hodd : verbose.getLsbD 0 = true) (hrounds : n ≤ rounds)
    (hsize : dataSize = i + (n * map.flMapBus.bytes : ℕ)) (hok : n = 0 → ok = some true) :
    verifyFrom m map dataSize verbose rounds i a b ok =
      some (decide (Same m a b (n * map.flMapBus.bytes))) := by
  induction n generalizing rounds i a b ok with
  | zero =>
      rw [Nat.zero_mul] at hsize
      rw [verifyFrom_done (by omega), hok rfl, Nat.zero_mul]
      exact congrArg some (decide_eq_true (p := Same m a b 0) nofun).symm
  | succ n ih =>
      obtain ⟨rounds, rfl⟩ : ∃ k, rounds = k + 1 := ⟨rounds - 1, by omega⟩
      have hpos := map.flMapBus.bytes_pos
      rw [Nat.succ_mul] at hsize
      rw [verifyFrom_succ (by omega), Nat.succ_mul, Nat.add_comm (n * _)]
      by_cases hsame : Same m a b map.flMapBus.bytes
      · have hgo : ¬stops verbose (decide (Same m a b map.flMapBus.bytes)) = true := by
          rw [stops_iff, decide_eq_true hsame]
          exact fun h => Bool.false_ne_true h.1.symm
        have hiff : Same m a b (map.flMapBus.bytes + n * map.flMapBus.bytes) ↔
            Same m (a + map.flMapBus.bytes) (b + map.flMapBus.bytes) (n * map.flMapBus.bytes) :=
          same_add.trans (and_iff_right hsame)
        rw [if_neg hgo, decide_eq_true hsame, decide_eq_decide.mpr hiff]
        exact ih (by omega) (by omega) fun _ => rfl
      · have hstop : stops verbose (decide (Same m a b map.flMapBus.bytes)) = true := by
          rw [stops_iff, decide_eq_false hsame]
          exact ⟨rfl, hodd⟩
        have hnot : ¬Same m a b (map.flMapBus.bytes + n * map.flMapBus.bytes) :=
          fun h => hsame (same_add.mp h).1
        rw [if_pos hstop, decide_eq_false hsame, decide_eq_false hnot]

/-- Otherwise only the last comparison counts. -/
theorem verifyFrom_even (hwidth : map.flMapWidth = map.flMapBus.bytes)
    (heven : verbose.getLsbD 0 = false) (hrounds : n + 1 ≤ rounds)
    (hsize : dataSize = i + ((n + 1) * map.flMapBus.bytes : ℕ)) :
    verifyFrom m map dataSize verbose rounds i a b ok =
      some (decide (Same m (a + n * map.flMapBus.bytes) (b + n * map.flMapBus.bytes)
        map.flMapBus.bytes)) := by
  have hgo : ∀ ok, ¬stops verbose ok = true := by
    intro ok
    rw [stops_iff, heven]
    exact fun h => Bool.false_ne_true h.2
  induction n generalizing rounds i a b ok with
  | zero =>
      obtain ⟨rounds, rfl⟩ : ∃ k, rounds = k + 1 := ⟨rounds - 1, by omega⟩
      have hpos := map.flMapBus.bytes_pos
      rw [Nat.zero_add, Nat.one_mul] at hsize
      rw [verifyFrom_succ (by omega), if_neg (hgo _), verifyFrom_done (by omega), Nat.zero_mul]
      rfl
  | succ n ih =>
      obtain ⟨rounds, rfl⟩ : ∃ k, rounds = k + 1 := ⟨rounds - 1, by omega⟩
      have hpos := map.flMapBus.bytes_pos
      rw [Nat.succ_mul] at hsize
      rw [verifyFrom_succ (by omega), if_neg (hgo _), ih (by omega) (by omega), Nat.succ_mul,
        Nat.add_right_comm, Nat.add_right_comm b, Nat.add_assoc, Nat.add_assoc]

end Loop

/-- `tgt_flashprogram` has `verbose` set to 1, and its comparison is the one of
`flVerifyDevice`. -/
theorem verifyFrom_eq_all {mem : Bytes} {data : List (BitVec 8)} {off : ℕ} (hne : data ≠ [])
    (hflash : ∀ j < data.length, mem (flBase + j) = m (off + j))
    (hdata : ∀ j < data.length, mem (dataBase + j) = data.getD j 0) :
    verifyFrom mem tgtBusMap data.length 1 data.length 0 flBase dataBase none =
      some ((List.range data.length).all fun j => m (off + j) = data.getD j 0) := by
  have hpos := List.length_pos_iff.mpr hne
  have hbytes : tgtBusMap.flMapBus.bytes = 1 := rfl
  rw [@verifyFrom_odd mem tgtBusMap 1 data.length flBase dataBase data.length 0 none data.length rfl
    (by decide) (Nat.le_refl _) (by rw [hbytes]; omega) (by omega), hbytes, Nat.mul_one]
  refine congrArg some (Bool.eq_iff_iff.mpr ?_)
  rw [decide_eq_true_iff, List.all_eq_true]
  constructor
  · intro hsame j hj
    have hlt := List.mem_range.mp hj
    rw [← hflash j hlt, ← hdata j hlt]
    exact decide_eq_true (hsame j hlt)
  · intro hall j hj
    rw [hflash j hj, hdata j hj]
    exact of_decide_eq_true (hall j (List.mem_range.mpr hj))

/-! ## The function -/

/-- The parameters pass the checks, and the map describes a bus. -/
structure Verifiable (map : FlBusMap) (flBase dataBase n : ℕ) : Prop where
  width : map.flMapWidth = map.flMapBus.bytes
  pos : 0 < n
  whole : map.flMapBus.bytes ∣ n
  data : dataBase ≠ 0xffffffff
  room : ((n : ℤ) + (flBase - map.flMapBase)) % 2 ^ 32 ≤ map.flMapSize

namespace Verifiable

variable {dev : FlDevice} (h : Verifiable map flBase dataBase n)

include h

/-- The data consist of one unit or more. -/
theorem exists_units : ∃ k, n = (k + 1) * map.flMapBus.bytes := by
  obtain ⟨k, hk⟩ := h.whole
  cases k with
  | zero =>
      rw [Nat.mul_zero] at hk
      exact absurd h.pos (by omega)
  | succ k => exact ⟨k, by rw [hk, Nat.mul_comm]⟩

theorem flVerify_eq {ok : Bool}
    (hok : verifyFrom m map n verbose n 0 flBase dataBase none = some ok) :
    flVerify m (some dev) (some map) flBase dataBase n verbose = some (if ok then 1 else 0) := by
  have hargs : ¬((n : ℤ) = -1 ∨ dataBase = 0xffffffff) := not_or.mpr ⟨by omega, h.data⟩
  unfold flVerify
  dsimp only
  rw [if_neg hargs, if_neg (Int.not_lt.mpr h.room), Int.toNat_natCast, hok]
  rfl

/-- The function is as right as its loop. -/
theorem sound_iff {ok : Bool}
    (hok : verifyFrom m map n verbose n 0 flBase dataBase none = some ok) :
    (∃ ret, flVerify m (some dev) (some map) flBase dataBase n verbose = some ret ∧
        (0 < ret ↔ Same m flBase dataBase n)) ↔
      (ok = true ↔ Same m flBase dataBase n) := by
  rw [h.flVerify_eq hok]
  constructor
  · rintro ⟨ret, hret, hiff⟩
    obtain rfl := Option.some.inj hret
    rw [← hiff]
    cases ok <;> decide
  · intro hiff
    refine ⟨_, rfl, ?_⟩
    rw [← hiff]
    cases ok <;> decide

end Verifiable

/-- `fl_verify_device` tells whether the flash holds the data if and only if `verbose` has its bit
0 set, or no difference is in front of a last unit without one. -/
theorem flVerify_sound_iff {dev : FlDevice} (h : Verifiable map flBase dataBase n) :
    (∃ ret, flVerify m (some dev) (some map) flBase dataBase n verbose = some ret ∧
        (0 < ret ↔ ∀ j < n, m (flBase + j) = m (dataBase + j))) ↔
      (verbose.getLsbD 0 = true ∨
        ((∀ j < n, n - map.flMapBus.bytes ≤ j → m (flBase + j) = m (dataBase + j)) →
          ∀ j < n, m (flBase + j) = m (dataBase + j))) := by
  obtain ⟨k, hk⟩ := h.exists_units
  have hrounds : k + 1 ≤ n := by
    rw [hk]
    exact Nat.le_mul_of_pos_right _ map.flMapBus.bytes_pos
  cases hbit : verbose.getLsbD 0 with
  | true =>
      refine iff_of_true ?_ (Or.inl rfl)
      have hok := @verifyFrom_odd m map verbose (k + 1) flBase dataBase n 0 none n h.width hbit
        hrounds (by omega) (fun hzero => absurd hzero (Nat.succ_ne_zero k))
      rw [← hk] at hok
      exact (h.sound_iff hok).mpr decide_eq_true_iff
  | false =>
      have hok := @verifyFrom_even m map verbose k flBase dataBase n 0 none n h.width hbit
        hrounds (by omega)
      refine (h.sound_iff hok).trans ?_
      rw [decide_eq_true_iff, same_last hk]
      constructor
      · exact fun hiff => Or.inr hiff.mp
      · rintro (hfalse | hmp)
        · cases hfalse
        · exact ⟨hmp, fun hall j hj _ => hall j hj⟩

/-- Two bytes that are the same. -/
theorem flVerify_sound_iff_two :
    (∃ ret, flVerify (fun _ => 0) (some ⟨"winb25x40", 0xef, 0x13⟩) (some tgtBusMap) 0xbfc00000
          0x80000000 2 0 = some ret ∧
        (0 < ret ↔ ∀ j < 2, (fun _ => 0 : Bytes) (0xbfc00000 + j) =
          (fun _ => 0 : Bytes) (0x80000000 + j))) ↔
      ((0 : BitVec 32).getLsbD 0 = true ∨
        ((∀ j < 2, 2 - tgtBusMap.flMapBus.bytes ≤ j → (fun _ => 0 : Bytes) (0xbfc00000 + j) =
          (fun _ => 0 : Bytes) (0x80000000 + j)) →
          ∀ j < 2, (fun _ => 0 : Bytes) (0xbfc00000 + j) = (fun _ => 0 : Bytes) (0x80000000 + j))) :=
  flVerify_sound_iff ⟨rfl, by decide, by decide, by decide, by decide⟩

/-- A flash whose first byte differs, and whose second one does not. -/
theorem flVerify_not_sound :
    flVerify (fun x => if x = 0xbfc00000 then 1 else 0) (some ⟨"winb25x40", 0xef, 0x13⟩)
        (some tgtBusMap) 0xbfc00000 0x80000000 2 0 = some 1 ∧
      ¬∀ j < 2, (fun x => if x = 0xbfc00000 then 1 else 0 : Bytes) (0xbfc00000 + j) =
        (fun x => if x = 0xbfc00000 then 1 else 0 : Bytes) (0x80000000 + j) := by
  decide

end SpiFlash

end LuojiOs
