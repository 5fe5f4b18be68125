import LuojiOs.Nand.Device

/-!
# Pages and their codes

A page stores some data if each of its steps, the block together with its code, has been
written with the data and has one flipped bit at most.  Reading such a page gives the data, and
writing to an erased page makes one.
-/

namespace LuojiOs

namespace Nand

variable {g : Geometry} {m m' buf data c : Bytes} {dat i s n x : ℕ} {d : Dev}

/-! ## Copies -/

theorem memcpy_of_inside {dst src : Bytes} {start n i : ℕ} (h : i < n) :
    memcpy dst start src n (start + i) = src i := by
  unfold memcpy
  rw [if_pos (by omega), Nat.add_sub_cancel_left]

theorem memcpy_zero_of_lt {dst src : Bytes} {n i : ℕ} (h : i < n) :
    memcpy dst 0 src n i = src i := by
  unfold memcpy
  rw [if_pos (by omega), Nat.sub_zero]

theorem memcpy_of_outside {dst src : Bytes} {start n x : ℕ} (h : x < start ∨ start + n ≤ x) :
    memcpy dst start src n x = dst x := by
  unfold memcpy
  rw [if_neg (by omega)]

/-! ## The geometry -/

namespace Geometry

variable (g : Geometry)

theorem writesize_pos : 0 < g.writesize := Nat.two_pow_pos _

theorem writesize_eq : g.writesize = 256 * g.steps := by
  change 2 ^ g.pageShift = 2 ^ 8 * 2 ^ (g.pageShift - 8)
  rw [← Nat.pow_add, Nat.add_sub_cancel' g.page_ge]

theorem step_lt {g : Geometry} {s i : ℕ} (hs : s < g.steps) (hi : i < 256) :
    256 * s + i < g.writesize := by
  rw [g.writesize_eq]
  omega

theorem eccpos_ne {g : Geometry} {i j : ℕ} (hi : i < g.total) (hj : j < g.total) (h : i ≠ j) :
    g.eccpos i ≠ g.eccpos j := fun he => h (g.eccpos_inj i hi j hj he)

end Geometry

/-! ## Only the block counts -/

theorem eccRegs_congr (h : ∀ i < n, m' (dat + i) = m (dat + i)) :
    eccRegs m' dat n = eccRegs m dat n := by
  unfold eccRegs
  have h1 := PairedParity.xorSum_congr (f := fun i => column (m' (dat + i)))
    (g := fun i => column (m (dat + i))) fun i hi => by rw [h i hi]
  have hline : ∀ w : ℕ → BitVec 8,
      PairedParity.xorSum (fun i => lineTerm w (m' (dat + i)) i) n =
        PairedParity.xorSum (fun i => lineTerm w (m (dat + i)) i) n := fun w =>
    PairedParity.xorSum_congr fun i hi => by rw [h i hi]
  rw [h1, hline, hline]

theorem nandCalculateEcc_congr (h : ∀ i < 256, m' (dat + i) = m (dat + i)) :
    nandCalculateEcc m' dat = nandCalculateEcc m dat := by
  rw [nandCalculateEcc_eq, nandCalculateEcc_eq, eccRegs_congr h]

theorem correctBy_congr (h : ∀ i < 256, m' (dat + i) = m (dat + i)) (e : EccCode) :
    (correctBy m' dat e).stat = (correctBy m dat e).stat ∧
      ∀ i < 256, (correctBy m' dat e).mem (dat + i) = (correctBy m dat e).mem (dat + i) := by
  unfold correctBy
  split
  · exact ⟨rfl, h⟩
  · split
    · refine ⟨rfl, fun i hi => ?_⟩
      have hoffs := (byteoffs e.code1 e.code0).isLt
      unfold flipByte Bytes.set
      change (if _ then _ else _) = if _ then _ else _
      rw [h _ hoffs, h i hi]
    · split <;> exact ⟨rfl, h⟩

theorem correctBy_frame (m : Bytes) (e : EccCode) (hx : x < dat ∨ dat + 256 ≤ x) :
    (correctBy m dat e).mem x = m x := by
  unfold correctBy
  split
  · rfl
  · split
    · have hoffs := (byteoffs e.code1 e.code0).isLt
      exact Bytes.set_of_ne (by omega)
    · split <;> rfl

/-! ## A flip or none -/

/-- A bit that may be flipped, or none. -/
abbrev Fault := Option Flip

namespace Fault

def mem (o : Fault) (dat : ℕ) (m : Bytes) : Bytes := o.elim m fun p => p.mem dat m

def ecc (o : Fault) (e : EccCode) : EccCode := o.elim e fun p => p.ecc e

/-- What `nand_correct_data` returns. -/
def stat (o : Fault) : ℕ := if o.isSome then 1 else 0

end Fault

theorem correct_of_fault (o : Fault) (m : Bytes) (dat : ℕ) :
    nandCorrectData (o.mem dat m) dat (o.ecc (nandCalculateEcc m dat))
      (nandCalculateEcc (o.mem dat m) dat) = ⟨o.stat, m⟩ := by
  cases o with
  | none => exact correct_of_none m dat
  | some p => exact correct_of_one p m dat

/-- The step `s` of a page holds that of `data`, but for a fault. -/
structure Holds (g : Geometry) (c data : Bytes) (s : ℕ) (o : Fault) : Prop where
  block : ∀ i < 256, c (256 * s + i) = o.mem (256 * s) data (256 * s + i)
  code : ∀ t < 3, c (g.writesize + g.eccpos (3 * s + t)) =
    (o.ecc (nandCalculateEcc data (256 * s))).byte t

/-- A page stores `data`: each step has one fault at most. -/
def Stores (g : Geometry) (c data : Bytes) : Prop := ∀ s < g.steps, ∃ o, Holds g c data s o

theorem Stores.congr (h : Stores g c data) {data' : Bytes}
    (hdata : ∀ x < g.writesize, data' x = data x) : Stores g c data' := by
  intro s hs
  obtain ⟨o, ho⟩ := h s hs
  have hblock : ∀ i < 256, data' (256 * s + i) = data (256 * s + i) := fun i hi =>
    hdata _ (Geometry.step_lt hs hi)
  refine ⟨o, fun i hi => ?_, fun t ht => ?_⟩
  · rw [ho.block i hi]
    cases o with
    | none => exact (hblock i hi).symm
    | some p =>
        cases p with
        | data j b =>
            change flipByte data _ _ _ = flipByte data' _ _ _
            unfold flipByte Bytes.set
            rw [hblock i hi, hblock j j.isLt]
        | code t b => exact (hblock i hi).symm
  · rw [ho.code t ht, nandCalculateEcc_congr hblock]

/-! ## Reading a page -/

theorem codeAt_eq (f : ℕ → BitVec 8) (e : EccCode) (h : ∀ t < 3, f (3 * s + t) = e.byte t) :
    codeAt f s = e := by
  unfold codeAt
  ext1
  · exact h 0 (by decide)
  · exact h 1 (by decide)
  · exact h 2 (by decide)

theorem codeAt_eccCalc (m : Bytes) (s : ℕ) :
    codeAt (eccCalc m) s = nandCalculateEcc m (256 * s) := by
  apply codeAt_eq
  intro t ht
  unfold eccCalc
  rw [show (3 * s + t) / 3 = s by omega, show (3 * s + t) % 3 = t by omega]

/-- One step of a page with a fault: its block becomes that of the data. -/
theorem correctStep_of_holds (r : Bytes × ℕ × ℕ) (page : Bytes) (oob : ℕ → BitVec 8) {o : Fault}
    (h : Holds g c data s o)
    (hpage : ∀ i < 256, page (256 * s + i) = c (256 * s + i))
    (hr : ∀ i < 256, r.1 (256 * s + i) = page (256 * s + i))
    (hoob : ∀ t < 3, oob (3 * s + t) = c (g.writesize + g.eccpos (3 * s + t))) :
    (∀ i < 256, (correctStep (eccCalc page) oob r s).1 (256 * s + i) = data (256 * s + i)) ∧
      (∀ x, x < 256 * s ∨ 256 * s + 256 ≤ x → (correctStep (eccCalc page) oob r s).1 x = r.1 x) ∧
      (correctStep (eccCalc page) oob r s).2 = (r.2.1, r.2.2 + o.stat) := by
  have hcode : codeAt oob s = o.ecc (nandCalculateEcc data (256 * s)) :=
    codeAt_eq _ _ fun t ht => (hoob t ht).trans (h.code t ht)
  have hcalc : codeAt (eccCalc page) s = nandCalculateEcc (o.mem (256 * s) data) (256 * s) := by
    rw [codeAt_eccCalc]
    exact nandCalculateEcc_congr fun i hi => (hpage i hi).trans (h.block i hi)
  have hmem : ∀ i < 256, r.1 (256 * s + i) = o.mem (256 * s) data (256 * s + i) := fun i hi =>
    ((hr i hi).trans (hpage i hi)).trans (h.block i hi)
  have hfault := correct_of_fault o data (256 * s)
  rw [nandCorrectData_eq] at hfault
  obtain ⟨hstat, hblock⟩ := correctBy_congr hmem
    ((nandCalculateEcc (o.mem (256 * s) data) (256 * s)).xor
      (o.ecc (nandCalculateEcc data (256 * s))))
  rw [hfault] at hstat hblock
  have hne : ((o.stat : ℕ) : ℤ) ≠ -1 := by omega
  unfold correctStep
  rw [hcode, hcalc, nandCorrectData_eq]
  simp only [hstat, if_neg hne]
  refine ⟨hblock, fun x hx => correctBy_frame _ _ hx, ?_⟩
  rw [Int.toNat_natCast]

/-- The steps from the first on: what lies before is data, what lies behind is as it was read. -/
theorem correctSteps_of_stores (page : Bytes) (oob : ℕ → BitVec 8) (h : Stores g c data)
    (hpage : ∀ x < g.writesize, page x = c x)
    (hoob : ∀ i < g.total, oob i = c (g.writesize + g.eccpos i)) (failed corrected : ℕ)
    (hn : n ≤ g.steps) :
    let r := (List.range n).foldl (correctStep (eccCalc page) oob) (page, failed, corrected)
    (∀ x < 256 * n, r.1 x = data x) ∧ (∀ x, 256 * n ≤ x → r.1 x = page x) ∧ r.2.1 = failed := by
  induction n with
  | zero => exact ⟨fun x hx => absurd hx (by omega), fun x _ => rfl, rfl⟩
  | succ n ih =>
      obtain ⟨hbefore, hbehind, hfailed⟩ := ih (Nat.le_of_succ_le hn)
      obtain ⟨o, ho⟩ := h n hn
      rw [List.range_succ, List.foldl_append, List.foldl_cons, List.foldl_nil]
      generalize (List.range n).foldl (correctStep (eccCalc page) oob)
        (page, failed, corrected) = r at hbefore hbehind hfailed ⊢
      have htotal : ∀ t < 3, 3 * n + t < g.total := fun t ht => by
        unfold Geometry.total
        omega
      obtain ⟨hblock, hframe, hcount⟩ := correctStep_of_holds r page oob ho
        (fun i hi => hpage _ (Geometry.step_lt hn hi)) (fun i hi => hbehind _ (by omega))
        fun t ht => hoob _ (htotal t ht)
      refine ⟨fun x hx => ?_, fun x hx => ?_, ?_⟩
      · by_cases hlt : x < 256 * n
        · rw [hframe x (Or.inl hlt), hbefore x hlt]
        · obtain ⟨i, rfl⟩ := Nat.exists_eq_add_of_le (Nat.le_of_not_lt hlt)
          exact hblock i (by omega)
      · rw [hframe x (Or.inr (by omega)), hbehind x (by omega)]
      · rw [hcount]
        exact hfailed

/-- What reading leaves as it is. -/
structure Kept (d d' : Dev) : Prop where
  cells : d'.cells = d.cells
  idh : d'.idh = d.idh
  databuf : d'.chip.databuf = d.chip.databuf
  oobwbuf : d'.chip.oobwbuf = d.chip.oobwbuf
  pagebuf : d'.chip.pagebuf = d.chip.pagebuf
  bbt : d'.chip.bbt = d.chip.bbt
  ops : d'.chip.ops = d.chip.ops

theorem kept_readPage (g : Geometry) (buf : Bytes) (page : ℕ) (d : Dev) :
    Kept d (nandReadPageSwecc g buf (cmdfunc g (.read0 0 page) d)).2 := by
  constructor <;> rfl

/-- What is read of the page and its code before the correction. -/
theorem readBuf_page (g : Geometry) (buf : Bytes) (page : ℕ) (d : Dev) :
    let r := readBuf (cmdfunc g (.read0 0 page) d).info buf g.writesize
    (∀ x < g.writesize, r.1 x = d.cells page x) ∧
      ∀ i < g.total, (readBuf r.2 d.chip.oobrbuf g.oobsize).1 (g.eccpos i) =
        d.cells page (g.writesize + g.eccpos i) := by
  have hmain : min g.writesize (g.writesize + g.oobsize - 0) = g.writesize := by omega
  have hspare : min g.oobsize (g.writesize + g.oobsize - (0 + g.writesize)) = g.oobsize := by omega
  refine ⟨fun x hx => ?_, fun i hi => ?_⟩
  · simp only [readBuf, cmdfunc, hmain]
    rw [memcpy_zero_of_lt hx, Nat.zero_add, memcpy_zero_of_lt (by omega)]
  · have hpos : g.eccpos i < g.oobsize := g.eccpos_lt i hi
    simp only [readBuf, cmdfunc, hmain, hspare]
    rw [memcpy_zero_of_lt hpos, Nat.zero_add, memcpy_zero_of_lt (by omega)]

/-- A page that stores `data` is read as `data`, without a failure. -/
theorem readPage_of_stores {page : ℕ} (h : Stores g (d.cells page) data) (buf : Bytes) :
    (∀ x < g.writesize,
        (nandReadPageSwecc g buf (cmdfunc g (.read0 0 page) d)).1 x = data x) ∧
      (nandReadPageSwecc g buf (cmdfunc g (.read0 0 page) d)).2.chip.failed = d.chip.failed := by
  obtain ⟨hpage, hoob⟩ := readBuf_page g buf page d
  have hsteps := correctSteps_of_stores (n := g.steps)
    (readBuf (cmdfunc g (.read0 0 page) d).info buf g.writesize).1
    (fun i => (readBuf (readBuf (cmdfunc g (.read0 0 page) d).info buf g.writesize).2
      d.chip.oobrbuf g.oobsize).1 (g.eccpos i)) h hpage hoob d.chip.failed d.chip.corrected le_rfl
  rw [← g.writesize_eq] at hsteps
  exact ⟨hsteps.1, hsteps.2.2⟩

/-! ## A page with two flips in a step -/

/-- The step `s` of a page holds that of `data`, but for two flips. -/
structure HoldsTwo (g : Geometry) (c data : Bytes) (s : ℕ) (p q : Flip) : Prop where
  block : ∀ i < 256, c (256 * s + i) = q.mem (256 * s) (p.mem (256 * s) data) (256 * s + i)
  code : ∀ t < 3, c (g.writesize + g.eccpos (3 * s + t)) =
    (q.ecc (p.ecc (nandCalculateEcc data (256 * s)))).byte t
  ne : p ≠ q
  left : ¬p.Spare
  right : ¬q.Spare

/-- A step changes its own block only, and failures are counted up. -/
theorem correctStep_frame (r : Bytes × ℕ × ℕ) (code oob : ℕ → BitVec 8) (s : ℕ) :
    (∀ x, x < 256 * s ∨ 256 * s + 256 ≤ x → (correctStep code oob r s).1 x = r.1 x) ∧
      r.2.1 ≤ (correctStep code oob r s).2.1 := by
  unfold correctStep
  rw [nandCorrectData_eq]
  dsimp only
  split
  · exact ⟨fun x hx => correctBy_frame _ _ hx, Nat.le_succ _⟩
  · exact ⟨fun x hx => correctBy_frame _ _ hx, Nat.le_refl _⟩

theorem correctStep_of_two (r : Bytes × ℕ × ℕ) (page : Bytes) (oob : ℕ → BitVec 8) {p q : Flip}
    (h : HoldsTwo g c data s p q)
    (hpage : ∀ i < 256, page (256 * s + i) = c (256 * s + i))
    (hr : ∀ i < 256, r.1 (256 * s + i) = page (256 * s + i))
    (hoob : ∀ t < 3, oob (3 * s + t) = c (g.writesize + g.eccpos (3 * s + t))) :
    (correctStep (eccCalc page) oob r s).2.1 = r.2.1 + 1 := by
  have hcode : codeAt oob s = q.ecc (p.ecc (nandCalculateEcc data (256 * s))) :=
    codeAt_eq _ _ fun t ht => (hoob t ht).trans (h.code t ht)
  have hcalc : codeAt (eccCalc page) s =
      nandCalculateEcc (q.mem (256 * s) (p.mem (256 * s) data)) (256 * s) := by
    rw [codeAt_eccCalc]
    exact nandCalculateEcc_congr fun i hi => (hpage i hi).trans (h.block i hi)
  have hmem : ∀ i < 256, r.1 (256 * s + i) =
      q.mem (256 * s) (p.mem (256 * s) data) (256 * s + i) := fun i hi =>
    ((hr i hi).trans (hpage i hi)).trans (h.block i hi)
  have htwo := correct_of_two h.left h.right h.ne data (256 * s)
  rw [nandCorrectData_eq] at htwo
  obtain ⟨hstat, -⟩ := correctBy_congr hmem
    ((nandCalculateEcc (q.mem (256 * s) (p.mem (256 * s) data)) (256 * s)).xor
      (q.ecc (p.ecc (nandCalculateEcc data (256 * s)))))
  rw [htwo] at hstat
  unfold correctStep
  rw [hcode, hcalc, nandCorrectData_eq]
  simp only [hstat, if_true]

theorem correctSteps_frame (page : Bytes) (code oob : ℕ → BitVec 8) (failed corrected n : ℕ) :
    let r := (List.range n).foldl (correctStep code oob) (page, failed, corrected)
    (∀ x, 256 * n ≤ x → r.1 x = page x) ∧ failed ≤ r.2.1 := by
  induction n with
  | zero => exact ⟨fun _ _ => rfl, Nat.le_refl _⟩
  | succ n ih =>
      rw [List.range_succ, List.foldl_append, List.foldl_cons, List.foldl_nil]
      obtain ⟨hframe, hle⟩ := ih
      generalize (List.range n).foldl (correctStep code oob) (page, failed, corrected) = r
        at hframe hle
      obtain ⟨hstep, hcount⟩ := correctStep_frame r code oob n
      exact ⟨fun x hx => (hstep x (Or.inr (by omega))).trans (hframe x (by omega)),
        hle.trans hcount⟩

theorem correctSteps_of_two {p q : Flip} (page : Bytes) (oob : ℕ → BitVec 8)
    (h : HoldsTwo g c data s p q)
    (hpage : ∀ i < 256, page (256 * s + i) = c (256 * s + i))
    (hoob : ∀ t < 3, oob (3 * s + t) = c (g.writesize + g.eccpos (3 * s + t)))
    (failed corrected : ℕ) (hs : s < n) :
    failed <
      ((List.range n).foldl (correctStep (eccCalc page) oob) (page, failed, corrected)).2.1 := by
  induction n with
  | zero => exact absurd hs (Nat.not_lt_zero s)
  | succ n ih =>
      rw [List.range_succ, List.foldl_append, List.foldl_cons, List.foldl_nil]
      obtain ⟨hframe, hle⟩ := correctSteps_frame page (eccCalc page) oob failed corrected n
      by_cases hlt : s < n
      · exact (ih hlt).trans_le (correctStep_frame _ _ _ _).2
      · obtain rfl : s = n := by omega
        rw [correctStep_of_two _ page oob h hpage (fun i _ => hframe _ (by omega)) hoob]
        exact Nat.lt_succ_of_le hle

/-- A page with two flips in a step is read with a failure. -/
theorem readPage_of_two {page : ℕ} {p q : Flip} (h : HoldsTwo g (d.cells page) data s p q)
    (hs : s < g.steps) (buf : Bytes) :
    d.chip.failed <
      (nandReadPageSwecc g buf (cmdfunc g (.read0 0 page) d)).2.chip.failed := by
  obtain ⟨hpage, hoob⟩ := readBuf_page g buf page d
  refine correctSteps_of_two (readBuf (cmdfunc g (.read0 0 page) d).info buf g.writesize).1
    (fun i => (readBuf (readBuf (cmdfunc g (.read0 0 page) d).info buf g.writesize).2
      d.chip.oobrbuf g.oobsize).1 (g.eccpos i)) h (fun i hi => hpage _ (Geometry.step_lt hs hi))
    (fun t ht => hoob _ ?_) d.chip.failed d.chip.corrected hs
  unfold Geometry.total
  omega

/-! ## Writing a page -/

/-- The spare bytes with the code of `buf` in its places. -/
def withCode (g : Geometry) (buf oob : Bytes) : Bytes :=
  (List.range g.total).foldl (fun oob i => oob.set (g.eccpos i) (eccCalc buf i)) oob

theorem foldl_set_of_ne {f : ℕ → BitVec 8} {pos : ℕ → ℕ} {oob : Bytes}
    (h : ∀ i < n, pos i ≠ x) :
    (List.range n).foldl (fun (oob : Bytes) i => oob.set (pos i) (f i)) oob x = oob x := by
  induction n with
  | zero => rfl
  | succ n ih =>
      rw [List.range_succ, List.foldl_append, List.foldl_cons, List.foldl_nil,
        Bytes.set_of_ne (h n (Nat.lt_succ_self n)).symm]
      exact ih fun i hi => h i (Nat.lt_succ_of_lt hi)

theorem foldl_set_of_lt {f : ℕ → BitVec 8} {pos : ℕ → ℕ} {oob : Bytes}
    (hpos : ∀ i < n, ∀ j < n, i ≠ j → pos i ≠ pos j) (hi : i < n) :
    (List.range n).foldl (fun (oob : Bytes) i => oob.set (pos i) (f i)) oob (pos i) = f i := by
  induction n with
  | zero => omega
  | succ n ih =>
      rw [List.range_succ, List.foldl_append, List.foldl_cons, List.foldl_nil]
      by_cases hin : i = n
      · subst hin
        exact Bytes.set_self
      · have hne := hpos i hi n (Nat.lt_succ_self n) hin
        rw [Bytes.set_of_ne hne]
        exact ih (fun i hi j hj => hpos i (Nat.lt_succ_of_lt hi) j (Nat.lt_succ_of_lt hj))
          (by omega)

theorem withCode_eccpos (hi : i < g.total) (buf oob : Bytes) :
    withCode g buf oob (g.eccpos i) = eccCalc buf i :=
  foldl_set_of_lt (fun _ hi _ hj hij => Geometry.eccpos_ne hi hj hij) hi

theorem withCode_of_free (h : ∀ i < g.total, g.eccpos i ≠ x) (buf oob : Bytes) :
    withCode g buf oob x = oob x := foldl_set_of_ne h

/-- The bytes that are sent to a page: the data, and behind them the spare ones. -/
def image (g : Geometry) (buf oob : Bytes) : Bytes :=
  fun x => if x < g.writesize then buf x else withCode g buf oob (x - g.writesize)

/-- Writing a page programs its bytes and no others. -/
theorem nandWritePage_cells (g : Geometry) (buf : Bytes) (page : ℕ) (d : Dev) (p x : ℕ) :
    (nandWritePage g buf page d).cells p x =
      if p = page ∧ x < g.writesize + g.oobsize then d.cells p x &&& image g buf d.chip.oobwbuf x
      else d.cells p x := by
  have hmain : min g.writesize (g.writesize + g.oobsize - 0 - 0) = g.writesize := by omega
  have hspare : min g.oobsize (g.writesize + g.oobsize - 0 - (0 + g.writesize)) = g.oobsize := by
    omega
  simp only [nandWritePage, cmdfunc, nandWritePageSwecc, program, writeBuf, hmain, hspare]
  by_cases hx : p = page ∧ x < g.writesize + g.oobsize
  · rw [if_pos hx, if_pos ⟨hx.1, by omega, by omega⟩]
    congr 1
    unfold image
    split
    · rw [memcpy_of_outside (by omega), Nat.sub_zero, memcpy_zero_of_lt (by assumption)]
    · next hlt =>
      obtain ⟨y, rfl⟩ := Nat.exists_eq_add_of_le (Nat.le_of_not_lt hlt)
      rw [Nat.sub_zero, Nat.zero_add, memcpy_of_inside (by omega), Nat.add_sub_cancel_left]
      rfl
  · rw [if_neg hx, if_neg]
    omega

/-! ## Writing to an erased page -/

/-- The bytes of an erased page. -/
def erased : Bytes := fun _ => 0xff#8

theorem erased_terms : column 0xff#8 = 0 ∧ odd 0xff#8 = false := by decide

/-- The code of an erased block is erased. -/
theorem nandCalculateEcc_erased (dat : ℕ) :
    nandCalculateEcc erased dat = ⟨0xff#8, 0xff#8, 0xff#8⟩ := by
  obtain ⟨hcolumn, hodd⟩ := erased_terms
  have hline : ∀ w : ℕ → BitVec 8,
      PairedParity.xorSum (fun i => lineTerm w (erased (dat + i)) i) 256 = 0 := fun w =>
    PairedParity.xorSum_zero fun i _ => if_neg (by rw [erased, hodd]; exact Bool.false_ne_true)
  have hregs : eccRegs erased dat 256 = ⟨0, 0, 0⟩ := by
    have hcolumns : PairedParity.xorSum (fun i => column (erased (dat + i))) 256 = 0 :=
      PairedParity.xorSum_zero fun _ _ => hcolumn
    unfold eccRegs
    rw [hline, hline, hcolumns]
  rw [nandCalculateEcc_eq, hregs]
  decide

/-- A byte with a faulty bit is programmed: the bit stays 0. -/
theorem and_fault (x : BitVec 8) : ∀ b : Fin 8,
    (0xff#8 ^^^ 1#8 <<< b.val) &&& x = if x.getLsbD b then x ^^^ 1#8 <<< b.val else x := by
  intro b
  have hone : ∀ i < 8, (1#8 <<< b.val).getLsbD i = decide (i = b) := by
    revert b
    decide
  have hff : ∀ i < 8, (0xff#8).getLsbD i = true := by decide
  apply BitVec.eq_of_getLsbD_eq
  intro i hi
  rw [BitVec.getLsbD_and, BitVec.getLsbD_xor, hff i hi, hone i hi]
  by_cases hib : i = b
  · subst hib
    split <;> simp_all
  · rw [decide_eq_false hib]
    split <;> simp [hone i hi, hib]

theorem erased_and (x : BitVec 8) : 0xff#8 &&& x = x := BitVec.allOnes_and

theorem xor_byte (c e : EccCode) (t : ℕ) : (c.xor e).byte t = c.byte t ^^^ e.byte t := by
  unfold EccCode.byte EccCode.xor
  split
  · rfl
  · split <;> rfl

theorem unit_byte : ∀ (t : Fin 3) (b : Fin 8) (k : Fin 3),
    (EccCode.unit t b).byte k = if k = t then 1#8 <<< b.val else 0#8 := by
  decide

theorem erased_byte (t : ℕ) : (EccCode.mk 0xff#8 0xff#8 0xff#8).byte t = 0xff#8 := by
  unfold EccCode.byte
  split
  · rfl
  · split <;> rfl

theorem flipByte_apply (m : Bytes) (dat i j b : ℕ) :
    flipByte m (dat + j) b (dat + i) =
      if i = j then m (dat + i) ^^^ 1#8 <<< b else m (dat + i) := by
  unfold flipByte
  by_cases hij : i = j
  · rw [if_pos hij, hij, Bytes.set_self]
  · rw [if_neg hij, Bytes.set_of_ne (by omega)]

theorem xor_unit_byte (e : EccCode) (t : Fin 3) (b : Fin 8) {k : ℕ} (hk : k < 3) :
    (e.xor (.unit t b)).byte k = if k = t then e.byte k ^^^ 1#8 <<< b.val else e.byte k := by
  rw [xor_byte, unit_byte t b ⟨k, hk⟩]
  by_cases hkt : k = t
  · rw [if_pos (Fin.ext hkt), if_pos hkt]
  · rw [if_neg fun h => hkt (congrArg Fin.val h), if_neg hkt]
    exact BitVec.xor_zero

/-- Bytes with one faulty bit are programmed: the fault shows, or it does not. -/
theorem and_of_flip {f e r : ℕ → BitVec 8} {j : ℕ} {b : Fin 8}
    (hf : ∀ i < n, f i = if i = j then 0xff#8 ^^^ 1#8 <<< b.val else 0xff#8)
    (hr : ∀ i < n, r i = f i &&& e i) :
    (∀ i < n, r i = if i = j then e i ^^^ 1#8 <<< b.val else e i) ∨ ∀ i < n, r i = e i := by
  by_cases hbit : (e j).getLsbD b = true
  · refine Or.inl fun i hi => ?_
    rw [hr i hi, hf i hi]
    split
    · next hij => rw [and_fault, hij, if_pos hbit]
    · exact erased_and _
  · refine Or.inr fun i hi => ?_
    rw [hr i hi, hf i hi]
    split
    · next hij => rw [and_fault, hij, if_neg hbit]
    · exact erased_and _

/-- Programming a step of an erased page leaves one fault at most. -/
theorem holds_program (h : ∃ o, Holds g c erased s o)
    (hblock : ∀ i < 256, m (256 * s + i) = c (256 * s + i) &&& data (256 * s + i))
    (hcode : ∀ t < 3, m (g.writesize + g.eccpos (3 * s + t)) =
      c (g.writesize + g.eccpos (3 * s + t)) &&& (nandCalculateEcc data (256 * s)).byte t) :
    ∃ o, Holds g m data s o := by
  obtain ⟨o, ho⟩ := h
  have hc := ho.code
  rw [nandCalculateEcc_erased] at hc
  have hsameBlock : (∀ i < 256, c (256 * s + i) = 0xff#8) →
      ∀ i < 256, m (256 * s + i) = data (256 * s + i) := fun hc i hi => by
    rw [hblock i hi, hc i hi, erased_and]
  have hsameCode : (∀ t < 3, c (g.writesize + g.eccpos (3 * s + t)) = 0xff#8) →
      ∀ t < 3, m (g.writesize + g.eccpos (3 * s + t)) =
        (nandCalculateEcc data (256 * s)).byte t := fun hc t ht => by
    rw [hcode t ht, hc t ht, erased_and]
  cases o with
  | none => exact ⟨none, hsameBlock ho.block, hsameCode fun t ht => (hc t ht).trans (erased_byte t)⟩
  | some p =>
      cases p with
      | data j b =>
          have hbytes := hsameCode fun t ht => (hc t ht).trans (erased_byte t)
          have hfault : ∀ i < 256, c (256 * s + i) =
              if i = j then 0xff#8 ^^^ 1#8 <<< b.val else 0xff#8 := fun i hi =>
            (ho.block i hi).trans (flipByte_apply erased (256 * s) i j b)
          obtain hflip | hsame := and_of_flip hfault hblock
          · refine ⟨some (.data j b), fun i hi => ?_, hbytes⟩
            exact (hflip i hi).trans (flipByte_apply data (256 * s) i j b).symm
          · exact ⟨none, hsame, hbytes⟩
      | code t b =>
          have hbytes := hsameBlock ho.block
          have hfault : ∀ k < 3, c (g.writesize + g.eccpos (3 * s + k)) =
              if k = t then 0xff#8 ^^^ 1#8 <<< b.val else 0xff#8 := fun k hk => by
            have hk' := (hc k hk).trans (xor_unit_byte _ t b hk)
            rwa [erased_byte] at hk'
          obtain hflip | hsame := and_of_flip hfault hcode
          · refine ⟨some (.code t b), hbytes, fun k hk => ?_⟩
            exact (hflip k hk).trans (xor_unit_byte _ t b hk).symm
          · exact ⟨none, hbytes, hsame⟩

/-- An erased page stores what is written to it. -/
theorem stores_write {page : ℕ} (h : Stores g (d.cells page) erased) :
    Stores g ((nandWritePage g data page d).cells page) data := by
  intro s hs
  have hcalc : ∀ t < 3, eccCalc data (3 * s + t) =
      (nandCalculateEcc data (256 * s)).byte t := fun t ht => by
    unfold eccCalc
    rw [show (3 * s + t) / 3 = s by omega, show (3 * s + t) % 3 = t by omega]
  refine holds_program (h s hs) (fun i hi => ?_) fun t ht => ?_
  · have hx := Geometry.step_lt hs hi
    rw [nandWritePage_cells, if_pos ⟨rfl, by omega⟩, image, if_pos hx]
  · have hi : 3 * s + t < g.total := by
      unfold Geometry.total
      omega
    have hpos := g.eccpos_lt _ hi
    rw [nandWritePage_cells, if_pos ⟨rfl, by omega⟩, image, if_neg (by omega),
      Nat.add_sub_cancel_left, withCode_eccpos hi, hcalc t ht]

theorem stores_erased (g : Geometry) : Stores g erased erased := by
  intro s _
  refine ⟨none, fun i _ => rfl, fun t _ => ?_⟩
  change 0xff#8 = (nandCalculateEcc erased (256 * s)).byte t
  rw [nandCalculateEcc_erased, erased_byte]

end Nand

end LuojiOs
