import LuojiOs.Support.CStrings
import LuojiOs.Support.PairedParity
import Mathlib.Tactic.IntervalCases

/-!
# Error correction of the NAND flash

`nand_ecc.c`: three bytes of code for a block of 256 bytes.  `nand_calculate_ecc` and
`nand_correct_data` are taken from the source line by line; the code that they compute is the
paired parity of the block, where the address of a bit is the number of its byte and its place
in the byte.
-/

namespace LuojiOs

namespace Nand

/-- Pre-calculated 256-way 1 byte column parity -/
def nandEccPrecalcTable : List (BitVec 8) :=
  [
    0x00, 0x55, 0x56, 0x03, 0x59, 0x0c, 0x0f, 0x5a, 0x5a, 0x0f, 0x0c, 0x59, 0x03, 0x56, 0x55, 0x00,
    0x65, 0x30, 0x33, 0x66, 0x3c, 0x69, 0x6a, 0x3f, 0x3f, 0x6a, 0x69, 0x3c, 0x66, 0x33, 0x30, 0x65,
    0x66, 0x33, 0x30, 0x65, 0x3f, 0x6a, 0x69, 0x3c, 0x3c, 0x69, 0x6a, 0x3f, 0x65, 0x30, 0x33, 0x66,
    0x03, 0x56, 0x55, 0x00, 0x5a, 0x0f, 0x0c, 0x59, 0x59, 0x0c, 0x0f, 0x5a, 0x00, 0x55, 0x56, 0x03,
    0x69, 0x3c, 0x3f, 0x6a, 0x30, 0x65, 0x66, 0x33, 0x33, 0x66, 0x65, 0x30, 0x6a, 0x3f, 0x3c, 0x69,
    0x0c, 0x59, 0x5a, 0x0f, 0x55, 0x00, 0x03, 0x56, 0x56, 0x03, 0x00, 0x55, 0x0f, 0x5a, 0x59, 0x0c,
    0x0f, 0x5a, 0x59, 0x0c, 0x56, 0x03, 0x00, 0x55, 0x55, 0x00, 0x03, 0x56, 0x0c, 0x59, 0x5a, 0x0f,
    0x6a, 0x3f, 0x3c, 0x69, 0x33, 0x66, 0x65, 0x30, 0x30, 0x65, 0x66, 0x33, 0x69, 0x3c, 0x3f, 0x6a,
    0x6a, 0x3f, 0x3c, 0x69, 0x33, 0x66, 0x65, 0x30, 0x30, 0x65, 0x66, 0x33, 0x69, 0x3c, 0x3f, 0x6a,
    0x0f, 0x5a, 0x59, 0x0c, 0x56, 0x03, 0x00, 0x55, 0x55, 0x00, 0x03, 0x56, 0x0c, 0x59, 0x5a, 0x0f,
    0x0c, 0x59, 0x5a, 0x0f, 0x55, 0x00, 0x03, 0x56, 0x56, 0x03, 0x00, 0x55, 0x0f, 0x5a, 0x59, 0x0c,
    0x69, 0x3c, 0x3f, 0x6a, 0x30, 0x65, 0x66, 0x33, 0x33, 0x66, 0x65, 0x30, 0x6a, 0x3f, 0x3c, 0x69,
    0x03, 0x56, 0x55, 0x00, 0x5a, 0x0f, 0x0c, 0x59, 0x59, 0x0c, 0x0f, 0x5a, 0x00, 0x55, 0x56, 0x03,
    0x66, 0x33, 0x30, 0x65, 0x3f, 0x6a, 0x69, 0x3c, 0x3c, 0x69, 0x6a, 0x3f, 0x65, 0x30, 0x33, 0x66,
    0x65, 0x30, 0x33, 0x66, 0x3c, 0x69, 0x6a, 0x3f, 0x3f, 0x6a, 0x69, 0x3c, 0x66, 0x33, 0x30, 0x65,
    0x00, 0x55, 0x56, 0x03, 0x59, 0x0c, 0x0f, 0x5a, 0x5a, 0x0f, 0x0c, 0x59, 0x03, 0x56, 0x55, 0x00
  ]

/-- The registers of `nand_calculate_ecc`. -/
@[ext]
structure EccRegs where
  reg1 : BitVec 8
  reg2 : BitVec 8
  reg3 : BitVec 8

/-- The three bytes of an `ecc_code`. -/
@[ext]
structure EccCode where
  code0 : BitVec 8
  code1 : BitVec 8
  code2 : BitVec 8
  deriving DecidableEq

/-- The entry of a byte in the table. -/
def precalc (x : BitVec 8) : BitVec 8 := nandEccPrecalcTable.getD x.toNat 0

/-- One round of the loop of `nand_calculate_ecc`. -/
def eccRound (m : Bytes) (dat : ℕ) (r : EccRegs) (i : ℕ) : EccRegs :=
  -- get CP0 - CP5 from the table
  let idx := precalc (m (dat + i))
  let r := { r with reg1 := r.reg1 ^^^ (idx &&& 0x3f#8) }
  -- all bit XOR = 1 ?
  if idx &&& 0x40#8 ≠ 0 then
    { r with reg3 := r.reg3 ^^^ BitVec.ofNat 8 i, reg2 := r.reg2 ^^^ ~~~(BitVec.ofNat 8 i) }
  else r

/-- The line parity, from B7 to B4. -/
def lineHigh (reg2 reg3 : BitVec 8) : BitVec 8 :=
  (reg3 &&& 0x80#8) >>> 0 ||| (reg2 &&& 0x80#8) >>> 1 ||| (reg3 &&& 0x40#8) >>> 1 |||
    (reg2 &&& 0x40#8) >>> 2 ||| (reg3 &&& 0x20#8) >>> 2 ||| (reg2 &&& 0x20#8) >>> 3 |||
    (reg3 &&& 0x10#8) >>> 3 ||| (reg2 &&& 0x10#8) >>> 4

/-- The line parity, from B3 to B0. -/
def lineLow (reg2 reg3 : BitVec 8) : BitVec 8 :=
  (reg3 &&& 0x08#8) <<< 4 ||| (reg2 &&& 0x08#8) <<< 3 ||| (reg3 &&& 0x04#8) <<< 3 |||
    (reg2 &&& 0x04#8) <<< 2 ||| (reg3 &&& 0x02#8) <<< 2 ||| (reg2 &&& 0x02#8) <<< 1 |||
    (reg3 &&& 0x01#8) <<< 1 ||| (reg2 &&& 0x01#8) <<< 0

/-- `nand_calculate_ecc`, for the 256 bytes from `dat` on. -/
def nandCalculateEcc (m : Bytes) (dat : ℕ) : EccCode :=
  -- build up column parity
  let r := (List.range 256).foldl (eccRound m dat) ⟨0, 0, 0⟩
  -- create non-inverted ECC code from line parity, and the final one
  { code0 := ~~~lineHigh r.reg2 r.reg3
    code1 := ~~~lineLow r.reg2 r.reg3
    code2 := (~~~r.reg1) <<< 2 ||| 0x03#8 }

/-- The loop of `countbits`, over the bits of a `uint32_t`. -/
def countbitsLoop : ℕ → BitVec 32 → ℕ → ℕ
  | 0, _, res => res
  | fuel + 1, byte, res =>
    if byte = 0 then res else countbitsLoop fuel (byte >>> 1) (res + (byte &&& 1#32).toNat)

def countbits (byte : BitVec 32) : ℕ := countbitsLoop 32 byte 0

/-- Is there a single bit error? -/
def singleBit (s0 s1 s2 : BitVec 8) : Bool :=
  (s0 ^^^ s0 >>> 1) &&& 0x55#8 == 0x55#8 && (s1 ^^^ s1 >>> 1) &&& 0x55#8 == 0x55#8 &&
    (s2 ^^^ s2 >>> 1) &&& 0x54#8 == 0x54#8

/-- The number of the byte with a single bit error. -/
def byteoffs (s0 s1 : BitVec 8) : BitVec 8 :=
  (s1 <<< 0 &&& 0x80#8) ||| (s1 <<< 1 &&& 0x40#8) ||| (s1 <<< 2 &&& 0x20#8) |||
    (s1 <<< 3 &&& 0x10#8) ||| (s0 >>> 4 &&& 0x08#8) ||| (s0 >>> 3 &&& 0x04#8) |||
    (s0 >>> 2 &&& 0x02#8) ||| (s0 >>> 1 &&& 0x01#8)

/-- The number of the bit in it. -/
def bitnum (s2 : BitVec 8) : BitVec 8 :=
  (s2 >>> 5 &&& 0x04#8) ||| (s2 >>> 4 &&& 0x02#8) ||| (s2 >>> 3 &&& 0x01#8)

/-- What `nand_correct_data` returns, and the memory after it. -/
structure Corrected where
  stat : ℤ
  mem : Bytes

/-- `nand_correct_data`, for the 256 bytes from `dat` on. -/
def nandCorrectData (m : Bytes) (dat : ℕ) (readEcc calcEcc : EccCode) : Corrected :=
  let s1 := calcEcc.code0 ^^^ readEcc.code0
  let s0 := calcEcc.code1 ^^^ readEcc.code1
  let s2 := calcEcc.code2 ^^^ readEcc.code2
  if s0 ||| s1 ||| s2 = 0#8 then ⟨0, m⟩
  else if singleBit s0 s1 s2 then
    let a := dat + (byteoffs s0 s1).toNat
    ⟨1, m.set a (m a ^^^ 1#8 <<< (bitnum s2).toNat)⟩
  else if countbits (s0.setWidth 32 ||| s1.setWidth 32 <<< 8 ||| s2.setWidth 32 <<< 16) = 1 then
    ⟨1, m⟩
  else ⟨-1, m⟩

/-! ## The registers as sums -/

open PairedParity

variable {m m' : Bytes} {dat i n : ℕ} {b : ℕ} {x y : BitVec 8}

def bitWord (b : ℕ) : BitVec 8 := precalc (1#8 <<< b)

/-- The table of the sums of all selections of the words, which doubles with each word. -/
def doubled (w : ℕ → BitVec 8) : ℕ → List (BitVec 8)
  | 0 => [0]
  | n + 1 => doubled w n ++ (doubled w n).map (· ^^^ w n)

theorem length_doubled (w : ℕ → BitVec 8) (n : ℕ) : (doubled w n).length = 2 ^ n := by
  induction n with
  | zero => rfl
  | succ n ih => rw [doubled, List.length_append, List.length_map, ih, Nat.pow_succ, Nat.mul_two]

theorem doubled_getElem? (w : ℕ → BitVec 8) (n : ℕ) {x : ℕ} (hx : x < 2 ^ n) :
    (doubled w n)[x]? = some (xorSum (fun b => if x.testBit b then w b else 0) n) := by
  induction n generalizing x with
  | zero =>
    obtain rfl : x = 0 := by omega
    rfl
  | succ n ih =>
    rw [doubled, xorSum]
    rcases Nat.lt_or_ge x (2 ^ n) with hlt | hge
    · rw [List.getElem?_append_left (by rwa [length_doubled]), ih hlt,
        if_neg (by rw [Nat.testBit_lt_two_pow hlt]; exact Bool.false_ne_true)]
      exact congrArg some BitVec.xor_zero.symm
    · obtain ⟨y, rfl⟩ := Nat.exists_eq_add_of_le hge
      have hy : y < 2 ^ n := by omega
      rw [List.getElem?_append_right (by rwa [length_doubled]), length_doubled,
        Nat.add_sub_cancel_left, List.getElem?_map, ih hy, Option.map_some,
        Nat.testBit_two_pow_add_eq, Nat.testBit_lt_two_pow hy, Bool.not_false, if_pos rfl]
      congr 2
      apply xorSum_congr
      intro b hb
      rw [Nat.testBit_two_pow_add_gt hb]

set_option maxRecDepth 4000 in
theorem table_eq : nandEccPrecalcTable = doubled bitWord 8 := by decide

/-- The table is linear: an entry is the sum of those of the bits. -/
theorem precalc_eq (x : BitVec 8) :
    precalc x = xorSum (fun b => if x.getLsbD b then bitWord b else 0) 8 := by
  rw [precalc, List.getD_eq_getElem?_getD, table_eq, doubled_getElem? bitWord 8 x.isLt]
  rfl

theorem precalc_xor (x y : BitVec 8) : precalc (x ^^^ y) = precalc x ^^^ precalc y := by
  rw [precalc_eq, precalc_eq x, precalc_eq y, ← xorSum_xor]
  apply xorSum_congr
  intro b _
  rw [BitVec.getLsbD_xor]
  cases x.getLsbD b <;> cases y.getLsbD b <;> simp

/-- What a byte adds to the column parity. -/
def column (x : BitVec 8) : BitVec 8 := precalc x &&& 0x3f#8

/-- Has a byte an odd number of ones? -/
def odd (x : BitVec 8) : Bool := (precalc x).getLsbD 6

theorem column_xor (x y : BitVec 8) : column (x ^^^ y) = column x ^^^ column y := by
  unfold column
  rw [precalc_xor]
  ext i
  simp [Bool.and_xor_distrib_right]

theorem odd_xor (x y : BitVec 8) : odd (x ^^^ y) = (odd x ^^ odd y) := by
  unfold odd
  rw [precalc_xor, BitVec.getLsbD_xor]

theorem odd_eq (x : BitVec 8) : decide (x &&& 0x40#8 ≠ 0) = x.getLsbD 6 := by
  revert x
  decide

/-- What a byte adds to the line parity `w` of its number. -/
def lineTerm (w : ℕ → BitVec 8) (x : BitVec 8) (i : ℕ) : BitVec 8 := if odd x then w i else 0

theorem lineTerm_xor (w : ℕ → BitVec 8) (x y : BitVec 8) (i : ℕ) :
    lineTerm w (x ^^^ y) i = lineTerm w x i ^^^ lineTerm w y i := by
  unfold lineTerm
  rw [odd_xor]
  cases odd x <;> cases odd y <;> simp

/-- The registers after `n` rounds. -/
def eccRegs (m : Bytes) (dat n : ℕ) : EccRegs where
  reg1 := xorSum (fun i => column (m (dat + i))) n
  reg2 := xorSum (fun i => lineTerm (fun i => ~~~(BitVec.ofNat 8 i)) (m (dat + i)) i) n
  reg3 := xorSum (fun i => lineTerm (fun i => BitVec.ofNat 8 i) (m (dat + i)) i) n

theorem eccRound_eq (m : Bytes) (dat : ℕ) (r : EccRegs) (i : ℕ) :
    eccRound m dat r i =
      { reg1 := r.reg1 ^^^ column (m (dat + i))
        reg2 := r.reg2 ^^^ lineTerm (fun i => ~~~(BitVec.ofNat 8 i)) (m (dat + i)) i
        reg3 := r.reg3 ^^^ lineTerm (fun i => BitVec.ofNat 8 i) (m (dat + i)) i } := by
  unfold eccRound lineTerm odd column
  rw [← odd_eq]
  by_cases h : precalc (m (dat + i)) &&& 0x40#8 ≠ 0
  · rw [decide_eq_true h, if_pos h, if_pos rfl, if_pos rfl]
  · rw [decide_eq_false h, if_neg h, if_neg Bool.false_ne_true, if_neg Bool.false_ne_true]
    change EccRegs.mk _ (r.reg2) (r.reg3) = EccRegs.mk _ (r.reg2 ^^^ 0#8) (r.reg3 ^^^ 0#8)
    rw [BitVec.xor_zero, BitVec.xor_zero]

theorem foldl_eccRound (m : Bytes) (dat n : ℕ) :
    (List.range n).foldl (eccRound m dat) ⟨0, 0, 0⟩ = eccRegs m dat n := by
  induction n with
  | zero => rfl
  | succ n ih =>
      rw [List.range_succ, List.foldl_append, ih, List.foldl_cons, List.foldl_nil, eccRound_eq]
      rfl

/-! ## One flip -/

/-- The bit `b` of the byte `a` is inverted. -/
def flipByte (m : Bytes) (a b : ℕ) : Bytes := m.set a (m a ^^^ 1#8 <<< b)

theorem flipByte_flipByte (m : Bytes) (a b : ℕ) : flipByte (flipByte m a b) a b = m := by
  funext x
  unfold flipByte
  by_cases hx : x = a
  · subst hx
    rw [Bytes.set_self, Bytes.set_self, BitVec.xor_assoc, BitVec.xor_self, BitVec.xor_zero]
  · rw [Bytes.set_of_ne hx, Bytes.set_of_ne hx]

/-- A sum over the bytes of a block changes by the term of the flip. -/
theorem xorSum_flipByte {f : BitVec 8 → ℕ → BitVec 8}
    (hf : ∀ x y i, f (x ^^^ y) i = f x i ^^^ f y i) (m : Bytes) (dat : ℕ) {i n : ℕ} (hi : i < n)
    (b : ℕ) :
    xorSum (fun j => f (flipByte m (dat + i) b (dat + j)) j) n =
      xorSum (fun j => f (m (dat + j)) j) n ^^^ f (1#8 <<< b) i := by
  have hterm : ∀ j, f (flipByte m (dat + i) b (dat + j)) j =
      f (m (dat + j)) j ^^^ (if j = i then f (1#8 <<< b) i else 0) := by
    intro j
    by_cases hj : j = i
    · subst hj
      rw [if_pos rfl, flipByte, Bytes.set_self, hf]
    · rw [if_neg hj, flipByte, Bytes.set_of_ne (by omega)]
      exact BitVec.xor_zero.symm
  have hsingle := xorSum_single (f := fun j => if j = i then f (1#8 <<< b) i else 0) hi
    fun j _ hj => if_neg hj
  rw [funext hterm, xorSum_xor, hsingle, if_pos rfl]

theorem odd_bit : ∀ b < 8, odd (1#8 <<< b) = true := by decide

theorem lineHigh_xor (x x' y y' : BitVec 8) :
    lineHigh (x ^^^ x') (y ^^^ y') = lineHigh x y ^^^ lineHigh x' y' := by
  apply BitVec.eq_of_getLsbD_eq
  intro i hi
  unfold lineHigh
  interval_cases i <;> simp

theorem lineLow_xor (x x' y y' : BitVec 8) :
    lineLow (x ^^^ x') (y ^^^ y') = lineLow x y ^^^ lineLow x' y' := by
  apply BitVec.eq_of_getLsbD_eq
  intro i hi
  unfold lineLow
  interval_cases i <;> simp

/-- The code of the registers. -/
def EccRegs.code (r : EccRegs) : EccCode where
  code0 := ~~~lineHigh r.reg2 r.reg3
  code1 := ~~~lineLow r.reg2 r.reg3
  code2 := (~~~r.reg1) <<< 2 ||| 0x03#8

theorem nandCalculateEcc_eq (m : Bytes) (dat : ℕ) :
    nandCalculateEcc m dat = (eccRegs m dat 256).code := by
  unfold nandCalculateEcc
  rw [foldl_eccRound]
  rfl

/-- The exclusive or of two codes. -/
def EccCode.xor (c d : EccCode) : EccCode where
  code0 := c.code0 ^^^ d.code0
  code1 := c.code1 ^^^ d.code1
  code2 := c.code2 ^^^ d.code2

/-- What a flip of the bit `b` of the byte `i` of the block changes in the code. -/
def flipCode (i b : ℕ) : EccCode where
  code0 := lineHigh (~~~(BitVec.ofNat 8 i)) (BitVec.ofNat 8 i)
  code1 := lineLow (~~~(BitVec.ofNat 8 i)) (BitVec.ofNat 8 i)
  code2 := column (1#8 <<< b) <<< 2

theorem not_xor_cancel (x y : BitVec 8) : ~~~(x ^^^ y) = ~~~x ^^^ y := by
  ext i
  simp

theorem shift_xor (x y : BitVec 8) :
    (x ^^^ y) <<< 2 ||| 0x03#8 = (x <<< 2 ||| 0x03#8) ^^^ y <<< 2 := by
  apply BitVec.eq_of_getLsbD_eq
  intro i hi
  interval_cases i <;> simp

theorem nandCalculateEcc_flipByte (m : Bytes) (dat : ℕ) (hi : i < 256) (hb : b < 8) :
    nandCalculateEcc (flipByte m (dat + i) b) dat =
      (nandCalculateEcc m dat).xor (flipCode i b) := by
  have h1 := xorSum_flipByte (f := fun x _ => column x) (fun x y _ => column_xor x y) m dat hi b
  have h2 := xorSum_flipByte (lineTerm_xor fun i => ~~~(BitVec.ofNat 8 i)) m dat hi b
  have h3 := xorSum_flipByte (lineTerm_xor fun i => BitVec.ofNat 8 i) m dat hi b
  rw [nandCalculateEcc_eq, nandCalculateEcc_eq]
  unfold eccRegs EccRegs.code EccCode.xor flipCode
  have hodd := odd_bit b hb
  unfold lineTerm at h2 h3 ⊢
  rw [hodd, if_pos rfl] at h2 h3
  rw [h1, h2, h3, lineHigh_xor, lineLow_xor]
  simp only [not_xor_cancel, shift_xor]

end Nand

end LuojiOs
