import LuojiOs.Flash.SpiFlash

/-!
# Programming in bursts

`spi_flash_write_area_fast` counts its bursts of 256 bytes from the first address, not from the
beginning of a page.  What a burst puts behind the end of its page comes to the beginning of the
same page, and `spi_flash_write_area` would have put it into the next one.
-/

namespace LuojiOs

namespace SpiFlash

variable {m : Bytes} {a x y i k page fuel : ℕ} {c : BitVec 8} {data rest : List (BitVec 8)}
  {place place' : ℕ → ℕ} {P Q : ℕ → Bool}

/-! ## Bytes at places of their own -/

/-- The bytes are programmed one after the other, the one with the number `i` at `place i`. -/
def programAt (place : ℕ → ℕ) : ℕ → List (BitVec 8) → Bytes → Bytes
  | _, [], m => m
  | i, c :: data, m => programAt place (i + 1) data (m.set (place i) (m (place i) &&& c))

/-- The conjunction of the bytes with these numbers. -/
def andAt (P : ℕ → Bool) : ℕ → List (BitVec 8) → BitVec 8
  | _, [] => 0xff
  | i, c :: data => (if P i then c else 0xff) &&& andAt P (i + 1) data

theorem ff_and (c : BitVec 8) : 0xff &&& c = c := BitVec.allOnes_and

theorem andAt_cons :
    andAt P i (c :: data) = (if P i then c else 0xff) &&& andAt P (i + 1) data := rfl

/-- A place holds the conjunction of what it held and what is programmed there. -/
theorem programAt_apply :
    programAt place i data m y = m y &&& andAt (fun j => place j = y) i data := by
  induction data generalizing i m with
  | nil => exact (BitVec.and_allOnes).symm
  | cons c data ih =>
      unfold programAt
      rw [ih, andAt_cons, ← BitVec.and_assoc]
      by_cases hy : place i = y
      · subst hy
        rw [Bytes.set_self, if_pos (decide_eq_true rfl)]
      · rw [Bytes.set_of_ne (Ne.symm hy), if_neg (by simpa using hy)]
        exact congrArg (· &&& _) BitVec.and_allOnes.symm

theorem programAt_shift :
    programAt place (i + k) data m = programAt (fun j => place (j + k)) i data m := by
  induction data generalizing i m with
  | nil => rfl
  | cons c data ih =>
      unfold programAt
      rw [Nat.add_right_comm, ih]

theorem programAt_append :
    programAt place i (data ++ rest) m =
      programAt place (i + data.length) rest (programAt place i data m) := by
  induction data generalizing i m with
  | nil => rfl
  | cons c data ih =>
      rw [List.cons_append, programAt, programAt, ih, List.length_cons, Nat.add_right_comm,
        Nat.add_assoc]

theorem programAt_congr (h : ∀ j, i ≤ j → j < i + data.length → place j = place' j) :
    programAt place i data m = programAt place' i data m := by
  induction data generalizing i m with
  | nil => rfl
  | cons c data ih =>
      rw [List.length_cons] at h
      unfold programAt
      rw [h i (Nat.le_refl i) (by omega), ih fun j hj hlt => h j (by omega) (by omega)]

theorem andAt_congr (h : ∀ j, P j = Q j) : andAt P i data = andAt Q i data := by
  rw [funext h]

theorem andAt_none (h : ∀ j, P j = false) : andAt P i data = 0xff := by
  induction data generalizing i with
  | nil => rfl
  | cons c data ih => rw [andAt_cons, h i, if_neg Bool.false_ne_true, ih]; rfl

/-- The bytes may be looked at in two groups. -/
theorem andAt_split : andAt P i data =
    andAt (fun j => P j && Q j) i data &&& andAt (fun j => P j && !Q j) i data := by
  induction data generalizing i with
  | nil => exact (ff_and 0xff).symm
  | cons c data ih =>
      have hhead : (if P i then c else 0xff) =
          (if (P i && Q i) then c else 0xff) &&& (if (P i && !Q i) then c else 0xff) := by
        cases P i with
        | false => exact (ff_and 0xff).symm
        | true =>
            cases Q i with
            | false => exact (ff_and c).symm
            | true => exact BitVec.and_allOnes.symm
      rw [andAt_cons, andAt_cons, andAt_cons, ih, hhead]
      ac_rfl

/-- The conjunction has only ones if all the bytes have. -/
theorem andAt_eq_ff : andAt P i data = 0xff ↔
    ∀ j (hj : j < data.length), P (i + j) = true → data[j] = 0xff := by
  induction data generalizing i with
  | nil => exact iff_of_true rfl nofun
  | cons c data ih =>
      rw [andAt_cons]
      refine BitVec.and_eq_allOnes_iff.trans ?_
      constructor
      · rintro ⟨hhead, htail⟩ j hj hP
        cases j with
        | zero =>
            rw [Nat.add_zero] at hP
            rwa [if_pos hP] at hhead
        | succ j =>
            rw [Nat.add_comm j 1, ← Nat.add_assoc] at hP
            exact ih.mp htail j (Nat.lt_of_succ_lt_succ hj) hP
      · intro h
        refine ⟨?_, ih.mpr fun j hj hP => h (j + 1) (Nat.succ_lt_succ hj) ?_⟩
        · split
          · next hP => exact h 0 (Nat.zero_lt_succ _) hP
          · rfl
        · rwa [Nat.add_comm j 1, ← Nat.add_assoc]

/-! ## The two functions -/

/-- Where `spi_flash_write_area` puts a byte. -/
def bytePlace (a i : ℕ) : ℕ := address (a + i)

/-- Where `spi_flash_write_area_fast` puts a byte. -/
def burstPlace (a i : ℕ) : ℕ := 256 * (address (a + 256 * (i / 256)) / 256) + (a + i) % 256

theorem programPage_eq :
    programPage page i data m = programAt (fun j => 256 * page + j % 256) i data m := by
  induction data generalizing i m with
  | nil => rfl
  | cons c data ih =>
      unfold programPage programAt
      exact ih

theorem pageProgram_eq : pageProgram a data m =
    programAt (fun j => 256 * (address a / 256) + (a + j) % 256) 0 data m := by
  have hplace : ∀ j, (j + address a % 256) % 256 = (a + j) % 256 := by
    intro j
    unfold address
    omega
  unfold pageProgram
  rw [programPage_eq, ← Nat.zero_add (address a % 256), programAt_shift]
  exact programAt_congr fun j _ _ => by rw [hplace]

theorem spiFlashWriteArea_eq_programAt :
    spiFlashWriteArea (a + i) data m = programAt (bytePlace a) i data m := by
  induction data generalizing i m with
  | nil => rfl
  | cons c data ih =>
      have hplace : 256 * (address (a + i) / 256) + (a + i + 0) % 256 = bytePlace a i := by
        unfold bytePlace address
        omega
      unfold spiFlashWriteArea programAt
      rw [Nat.add_assoc, ih, pageProgram_eq, programAt, programAt, hplace]

theorem burst_eq (hle : data.length ≤ 256) :
    pageProgram (a + 256 * k) data m = programAt (burstPlace a) (256 * k) data m := by
  rw [pageProgram_eq, ← Nat.zero_add (256 * k), programAt_shift, Nat.zero_add]
  refine programAt_congr fun j _ hj => ?_
  have hquot : (j + 256 * k) / 256 = k := by omega
  unfold burstPlace
  rw [hquot]
  omega

theorem writeFastFrom_eq_programAt (hfuel : data.length < fuel) :
    writeFastFrom fuel (a + 256 * k) data m = programAt (burstPlace a) (256 * k) data m := by
  induction fuel generalizing data m k with
  | zero => omega
  | succ fuel ih =>
      unfold writeFastFrom
      split
      · split
        · next hfull =>
          have hlen : (data.take 256).length = 256 := List.length_take_of_le hfull
          have hrest : (data.drop 256).length = data.length - 256 := List.length_drop
          have hnext : a + 256 * k + 256 = a + 256 * (k + 1) := by omega
          rw [burst_eq (Nat.le_of_eq hlen), hnext, ih (by omega)]
          conv_rhs => rw [← List.take_append_drop 256 data, programAt_append, hlen]
          rfl
        · next hshort => exact burst_eq (by omega)
      · next hempty =>
        have hnil : data = [] := List.eq_nil_of_length_eq_zero (by omega)
        rw [hnil]
        rfl

theorem spiFlashWriteAreaFast_eq_programAt :
    spiFlashWriteAreaFast a data m = programAt (burstPlace a) 0 data m :=
  @writeFastFrom_eq_programAt m a 0 (data.length + 1) data (Nat.lt_succ_self _)

/-! ## Comparison -/

/-- The flash after it was erased. -/
def erasedFlash : Bytes := fun _ => 0xff

/-- The byte with the number `i` is behind the end of the page of its burst. -/
def wraps (a i : ℕ) : Bool := 256 ≤ a % 256 + i % 256

/-- The bursts of 256 bytes that begin in the page `p`, pages being counted modulo `2 ^ 16`: the
conjunction of their bytes that belong to the place `x` of the next page. -/
def wrapped (a : ℕ) (data : List (BitVec 8)) (p x : ℕ) : BitVec 8 :=
  andAt (fun i => wraps a i && decide ((a / 256 + i / 256) % 0x10000 = p) &&
    decide ((a + i) % 256 = x)) 0 data

theorem burstPlace_of_not_wraps (h : wraps a i = false) : burstPlace a i = bytePlace a i := by
  have hlt : a % 256 + i % 256 < 256 := Nat.lt_of_not_le (of_decide_eq_false h)
  unfold burstPlace bytePlace address
  omega

theorem burstPlace_eq :
    burstPlace a i = 256 * ((a / 256 + i / 256) % 0x10000) + (a + i) % 256 := by
  unfold burstPlace address
  omega

theorem bytePlace_of_wraps (h : wraps a i = true) :
    bytePlace a i = 256 * ((a / 256 + i / 256 + 1) % 0x10000) + (a + i) % 256 := by
  have hle : 256 ≤ a % 256 + i % 256 := of_decide_eq_true h
  unfold bytePlace address
  omega

/-- The bytes that come to a place, those of full pages apart. -/
theorem andAt_place (hplace : ∀ i, wraps a i = false → place i = bytePlace a i) :
    andAt (fun i => place i = y) 0 data =
      andAt (fun i => decide (place i = y) && wraps a i) 0 data &&&
        andAt (fun i => decide (bytePlace a i = y) && !wraps a i) 0 data := by
  rw [@andAt_split _ _ _ (wraps a)]
  refine congrArg _ (andAt_congr fun i => ?_)
  cases hi : wraps a i with
  | true => rw [Bool.not_true, Bool.and_false, Bool.and_false]
  | false => rw [hplace i hi]

theorem fast_place {p : ℕ} (hx : x < 256) :
    andAt (fun i => decide (burstPlace a i = 256 * p + x) && wraps a i) 0 data =
      wrapped a data p x := by
  refine andAt_congr fun i => ?_
  cases hi : wraps a i with
  | false => simp
  | true =>
      rw [burstPlace_eq]
      simp only [Bool.and_true, Bool.true_and, ← Bool.decide_and, decide_eq_decide]
      omega

theorem slow_place {p : ℕ} (hp : p < 0x10000) (hx : x < 256) :
    andAt (fun i => decide (bytePlace a i = 256 * p + x) && wraps a i) 0 data =
      wrapped a data ((p + 0xffff) % 0x10000) x := by
  refine andAt_congr fun i => ?_
  cases hi : wraps a i with
  | false => simp
  | true =>
      rw [bytePlace_of_wraps hi]
      simp only [Bool.and_true, Bool.true_and, ← Bool.decide_and, decide_eq_decide]
      omega

theorem wrapped_of_le {p : ℕ} (hx : a % 256 ≤ x) (hlt : x < 256) : wrapped a data p x = 0xff := by
  refine andAt_none fun i => ?_
  by_contra hne
  have htrue := Bool.of_not_eq_false hne
  simp only [wraps, Bool.and_eq_true, decide_eq_true_eq] at htrue
  omega

/-- Only bytes that wrap come to a place that is left out at the beginning. -/
theorem rest_of_lt {p : ℕ} (hx : x < a % 256) :
    andAt (fun i => decide (bytePlace a i = 256 * p + x) && !wraps a i) 0 data = 0xff := by
  refine andAt_none fun i => ?_
  by_contra hne
  obtain ⟨hplace, hwraps⟩ := Bool.and_eq_true_iff.mp (Bool.of_not_eq_false hne)
  rw [Bool.not_eq_true'] at hwraps
  have hlt : ¬256 ≤ a % 256 + i % 256 := of_decide_eq_false hwraps
  have heq : (a + i) % 0x1000000 = 256 * p + x := of_decide_eq_true hplace
  omega

/-- Nothing is programmed behind the end of the flash. -/
theorem outside_eq {p : ℕ} (hp : 0x10000 ≤ p) :
    andAt (fun i => decide (burstPlace a i = 256 * p + x) && P i) 0 data =
      andAt (fun i => decide (bytePlace a i = 256 * p + x) && P i) 0 data := by
  refine andAt_congr fun i => ?_
  have hburst : burstPlace a i ≠ 256 * p + x := by
    rw [burstPlace_eq]
    omega
  have hbyte : bytePlace a i ≠ 256 * p + x := by
    unfold bytePlace address
    omega
  rw [decide_eq_false hburst, decide_eq_false hbyte]

/-- From an erased flash the two functions come to the same contents if and only if, at each place
that is left out at the beginning of the first page, each page gets the same from the bytes that
wrap. -/
theorem spiFlashWriteAreaFast_eq_iff (a : ℕ) (data : List (BitVec 8)) :
    spiFlashWriteAreaFast a data erasedFlash = spiFlashWriteArea a data erasedFlash ↔
      ∀ x < a % 256, ∀ p < 0x10000, ∀ q < 0x10000, wrapped a data p x = wrapped a data q x := by
  have hslow : spiFlashWriteArea a data erasedFlash = programAt (bytePlace a) 0 data erasedFlash :=
    @spiFlashWriteArea_eq_programAt erasedFlash a 0 data
  have hfast := fun y => @andAt_place a y data (burstPlace a) fun i => burstPlace_of_not_wraps
  have hbyte := fun y => @andAt_place a y data (bytePlace a) fun i _ => rfl
  rw [spiFlashWriteAreaFast_eq_programAt, hslow]
  constructor
  · intro heq
    have hstep : ∀ p < 0x10000, ∀ x < a % 256,
        wrapped a data p x = wrapped a data ((p + 0xffff) % 0x10000) x := by
      intro p hp x hx
      have hx' : x < 256 := by omega
      have hat := congrFun heq (256 * p + x)
      rw [programAt_apply, programAt_apply, hfast, hbyte, fast_place hx', slow_place hp hx'] at hat
      rw [rest_of_lt hx] at hat
      have hones : ∀ c : BitVec 8, c &&& 0xff = c := fun c => BitVec.and_allOnes
      unfold erasedFlash at hat
      rwa [hones, hones, ff_and, ff_and] at hat
    have hzero : ∀ x < a % 256, ∀ p < 0x10000, wrapped a data p x = wrapped a data 0 x := by
      intro x hx p
      induction p with
      | zero => exact fun _ => rfl
      | succ p ih =>
          intro hp
          have hprev : (p + 1 + 0xffff) % 0x10000 = p := by omega
          rw [hstep (p + 1) hp x hx, hprev, ih (by omega)]
    intro x hx p hp q hq
    rw [hzero x hx p hp, hzero x hx q hq]
  · intro hsame
    funext y
    rw [programAt_apply, programAt_apply, hfast, hbyte]
    obtain ⟨p, x, hx, rfl⟩ : ∃ p x, x < 256 ∧ y = 256 * p + x :=
      ⟨y / 256, y % 256, by omega, by omega⟩
    by_cases hp : p < 0x10000
    · rw [fast_place hx, slow_place hp hx]
      by_cases hlow : x < a % 256
      · rw [hsame x hlow p hp ((p + 0xffff) % 0x10000) (by omega)]
      · rw [wrapped_of_le (by omega) hx, wrapped_of_le (by omega) hx]
    · rw [outside_eq (Nat.le_of_not_lt hp)]

/-- In a buffer that does not come to all the pages, the bytes that wrap have to be `0xff`. -/
theorem spiFlashWriteAreaFast_eq_iff_of_le (hlen : data.length ≤ 256 * 0xffff) :
    spiFlashWriteAreaFast a data erasedFlash = spiFlashWriteArea a data erasedFlash ↔
      ∀ i (h : i < data.length), wraps a i = true → data[i] = 0xff := by
  rw [spiFlashWriteAreaFast_eq_iff]
  constructor
  · intro hsame i hi hwraps
    have hx : (a + i) % 256 < a % 256 := by
      have hle : 256 ≤ a % 256 + i % 256 := of_decide_eq_true hwraps
      omega
    have hfree : wrapped a data ((a / 256 + 0xffff) % 0x10000) ((a + i) % 256) = 0xff := by
      refine andAt_eq_ff.mpr fun j hj hat => ?_
      simp only [Bool.and_eq_true, decide_eq_true_eq] at hat
      omega
    have hpage := hsame _ hx ((a / 256 + i / 256) % 0x10000) (by omega)
      ((a / 256 + 0xffff) % 0x10000) (by omega)
    rw [hfree] at hpage
    refine andAt_eq_ff.mp hpage i hi ?_
    rw [Nat.zero_add]
    simp [hwraps]
  · intro hall x _ p _ q _
    have hff : ∀ p, wrapped a data p x = 0xff := fun p => andAt_eq_ff.mpr fun j hj hat => by
      rw [Nat.zero_add] at hat
      simp only [Bool.and_eq_true] at hat
      exact hall j hj hat.1.1
    rw [hff, hff]

/-- A burst that begins behind the beginning of a page. -/
theorem spiFlashWriteAreaFast_ne :
    spiFlashWriteAreaFast 1 (List.replicate 256 0) erasedFlash ≠
      spiFlashWriteArea 1 (List.replicate 256 0) erasedFlash := by
  intro heq
  have hbyte := congrFun heq 0
  revert hbyte
  decide +kernel

end SpiFlash

end LuojiOs
