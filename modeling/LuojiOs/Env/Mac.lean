import LuojiOs.Env.Nvram
import Mathlib.Data.List.Basic
import Mathlib.Data.List.Forall2
import Mathlib.Data.List.OfFn
import Mathlib.Tactic.NormNum
import Mathlib.Tactic.SplitIfs

/-!
# The MAC address

`ethaddr` is six numbers of two hexadecimal digits with colons between them.
`check_mac_format` tests the length, the colons and each number, and `mac_str_to_hex` tests
and stores the numbers.  Both want a number to be less than 255, so that none may be `ff`.
-/

namespace LuojiOs

open Bytes

/-- The character `:`. -/
def colon : BitVec 8 := 0x3a

/-- The loop of `mac_str_to_hex`, with `n` rounds left. -/
def macStrToHexFrom (macStr : CString) (macHex : ℕ) : ℕ → ℕ → Bytes → Bool × Bytes
  | 0, _, m => (true, m)
  | n + 1, j, m =>
    let hexValue := (strToHex ((macStr.drop (3 * j)).take 2)).toInt
    if 0 ≤ hexValue ∧ hexValue < 0xff then
      macStrToHexFrom macStr macHex n (j + 1) (m.set (macHex + j) (BitVec.ofInt 8 hexValue))
    else (false, m)

/-- `mac_str_to_hex`, which stores the numbers from the address `macHex` on. -/
def macStrToHex (macStr : CString) (macHex : ℕ) (m : Bytes) : Bool × Bytes :=
  if checkMacFormat macStr then macStrToHexFrom macStr macHex 6 0 m else (false, m)

/-! ## The format -/

/-- Two hexadecimal digits for the number `b`. -/
def HexByte (t : CString) (b : BitVec 8) : Prop :=
  ∃ c d hi lo, t = [c, d] ∧ hexDigit c = some hi ∧ hexDigit d = some lo ∧ b.toNat = 16 * hi + lo

/-- The numbers `bs` with colons between them. -/
def MacText (s : CString) (bs : List (BitVec 8)) : Prop :=
  bs.length = 6 ∧ ∃ ts, List.Forall₂ HexByte ts bs ∧ s = [colon].intercalate ts

/-- The digit for `n`, as a capital letter or a small one. -/
def hexChar (upper : Bool) (n : ℕ) : BitVec 8 :=
  BitVec.ofNat 8 (if n < 10 then 0x30 + n else if upper then 0x41 + n - 10 else 0x61 + n - 10)

def renderByte (upper : Bool) (b : BitVec 8) : CString :=
  [hexChar upper (b.toNat / 16), hexChar upper (b.toNat % 16)]

def renderMac (upper : Bool) (bs : List (BitVec 8)) : CString :=
  [colon].intercalate (bs.map (renderByte upper))

/-! ## One number -/

section HexByte

variable {c d : BitVec 8} {b : BitVec 8} {t s : CString} {hi lo : ℕ}

theorem hexDigit_lt {n : ℕ} (h : hexDigit c = some n) : n < 16 := by
  unfold hexDigit at h
  dsimp only at h
  split_ifs at h <;> cases h <;> omega

theorem hexDigit_hexChar (upper : Bool) {n : ℕ} (h : n < 16) :
    hexDigit (hexChar upper n) = some n := by
  have hall : ∀ n < 16, ∀ upper, hexDigit (hexChar upper n) = some n := by decide
  exact hall n h upper

theorem HexByte.length (h : HexByte t b) : t.length = 2 := by
  obtain ⟨c, d, -, -, rfl, -⟩ := h
  rfl

theorem hexByte_renderByte (upper : Bool) (b : BitVec 8) : HexByte (renderByte upper b) b := by
  have hb := b.isLt
  refine ⟨_, _, b.toNat / 16, b.toNat % 16, rfl, hexDigit_hexChar upper (by omega),
    hexDigit_hexChar upper (by omega), by omega⟩

/-- `str_to_hex` of two characters. -/
theorem strToHex_pair (hc : hexDigit c = some hi) (hd : hexDigit d = some lo) :
    (strToHex [c, d]).toInt = 16 * hi + lo := by
  have hhi := hexDigit_lt hc
  have hlo := hexDigit_lt hd
  have hzero : (0 : BitVec 32).toNat = 0 := rfl
  have hnat : (strToHex [c, d]).toNat = 16 * hi + lo := by
    unfold strToHex
    simp only [strToHexFrom, hc, hd, BitVec.toNat_add, BitVec.toNat_shiftLeft,
      BitVec.toNat_ofNat, Nat.shiftLeft_eq, hzero]
    omega
  rw [BitVec.toInt_eq_toNat_of_lt (by omega), hnat]
  norm_cast

theorem HexByte.strToHex (h : HexByte t b) : (strToHex t).toInt = b.toNat := by
  obtain ⟨c, d, hi, lo, rfl, hc, hd, hb⟩ := h
  rw [strToHex_pair hc hd, hb]
  norm_cast

/-- Without two digits the result is -1. -/
theorem exists_hexByte (ht : t.length = 2) (h : 0 ≤ (LuojiOs.strToHex t).toInt) :
    ∃ b, HexByte t b := by
  obtain ⟨c, d, rfl⟩ := List.length_eq_two.mp ht
  have hminus : (-1 : BitVec 32).toInt = -1 := by decide
  unfold LuojiOs.strToHex at h
  simp only [strToHexFrom] at h
  cases hc : hexDigit c with
  | none => simp [hc] at h
  | some hi =>
      cases hd : hexDigit d with
      | none => simp [hc, hd] at h
      | some lo =>
          have hhi := hexDigit_lt hc
          have hlo := hexDigit_lt hd
          refine ⟨BitVec.ofNat 8 (16 * hi + lo), c, d, hi, lo, rfl, hc, hd, ?_⟩
          rw [BitVec.toNat_ofNat]
          omega

/-- The test of one number. -/
theorem inRange_iff (ht : t.length = 2) :
    (0 ≤ (LuojiOs.strToHex t).toInt ∧ (LuojiOs.strToHex t).toInt < 0xff) ↔
      ∃ b, HexByte t b ∧ b ≠ 0xff := by
  constructor
  · rintro ⟨hnonneg, hlt⟩
    obtain ⟨b, hb⟩ := exists_hexByte ht hnonneg
    refine ⟨b, hb, ?_⟩
    rintro rfl
    rw [hb.strToHex] at hlt
    exact absurd hlt (by decide)
  · rintro ⟨b, hb, hne⟩
    rw [hb.strToHex]
    have hne' : b.toNat ≠ 255 := fun h => hne (BitVec.eq_of_toNat_eq h)
    have := b.isLt
    omega

/-- A number is read in one way. -/
theorem HexByte.unique {b' : BitVec 8} (h : HexByte t b) (h' : HexByte t b') : b = b' := by
  have heq := h.strToHex.symm.trans h'.strToHex
  exact BitVec.eq_of_toNat_eq (by exact_mod_cast heq)

end HexByte

/-! ## All numbers -/

section Numbers

variable {s t : CString} {ts : List CString} {bs : List (BitVec 8)} {b : BitVec 8} {n : ℕ}

/-- The number `j` of a text. -/
def number (s : CString) (j : ℕ) : CString := (s.drop (3 * j)).take 2

theorem intercalate_pair {c d : BitVec 8} (hts : ts ≠ []) :
    [colon].intercalate ([c, d] :: ts) = c :: d :: colon :: [colon].intercalate ts := by
  rw [List.intercalate_cons_of_ne_nil hts]
  rfl

/-- A text is made of numbers if the colons are in their places. -/
theorem exists_intercalate (hlen : s.length = 3 * n + 2)
    (hcolon : ∀ j < n, s[3 * j + 2]? = some colon) :
    ∃ ts, ts.length = n + 1 ∧ (∀ t ∈ ts, t.length = 2) ∧ s = [colon].intercalate ts := by
  induction n generalizing s with
  | zero => exact ⟨[s], rfl, by simpa using hlen, by simp⟩
  | succ n ih =>
      match s with
      | [] | [_] | [_, _] => simp at hlen
      | c :: d :: e :: s =>
          have he : e = colon := by simpa using hcolon 0 (Nat.succ_pos n)
          obtain ⟨ts, hts, hall, rfl⟩ := ih (s := s)
            (by simp only [List.length_cons] at hlen; omega)
            (fun j hj => by simpa [Nat.mul_add] using hcolon (j + 1) (by omega))
          have hne : ts ≠ [] := by
            rintro rfl
            cases hts
          refine ⟨[c, d] :: ts, by simp [hts], ?_, ?_⟩
          · intro t ht
            rcases List.mem_cons.mp ht with rfl | ht
            · rfl
            · exact hall t ht
          · rw [intercalate_pair hne, he]

/-- The length, the colons and the numbers of a text. -/
theorem intercalate_spec (hts : ts.length = n + 1) (hlen : ∀ t ∈ ts, t.length = 2) :
    ([colon].intercalate ts).length = 3 * n + 2 ∧
      (∀ j < n, ([colon].intercalate ts)[3 * j + 2]? = some colon) ∧
      ∀ j (hj : j < ts.length), number ([colon].intercalate ts) j = ts[j] := by
  induction n generalizing ts with
  | zero =>
      obtain ⟨t, rfl⟩ := List.length_eq_one_iff.mp hts
      have ht := hlen t List.mem_cons_self
      rw [List.intercalate_singleton]
      refine ⟨ht, nofun, ?_⟩
      intro j hj
      obtain rfl : j = 0 := by simpa using hj
      simp [number, ← ht]
  | succ n ih =>
      match ts with
      | [] => cases hts
      | t :: ts =>
          obtain ⟨c, d, rfl⟩ := List.length_eq_two.mp (hlen t List.mem_cons_self)
          have hts' : ts.length = n + 1 := by simpa using hts
          have hne : ts ≠ [] := by
            rintro rfl
            cases hts'
          obtain ⟨hl, hc, hn⟩ := ih hts' fun t ht => hlen t (List.mem_cons_of_mem _ ht)
          rw [intercalate_pair hne]
          refine ⟨by simp only [List.length_cons, hl]; omega, ?_, ?_⟩
          · intro j hj
            cases j with
            | zero => rfl
            | succ j => simpa [Nat.mul_add] using hc j (by omega)
          · intro j hj
            cases j with
            | zero => rfl
            | succ j =>
                have := hn j (by simpa using hj)
                simpa [number, Nat.mul_add] using this

theorem MacText.numbers (h : MacText s bs) :
    s.length = 17 ∧ (∀ j < 5, s[3 * j + 2]? = some colon) ∧
      ∀ j (hj : j < bs.length), HexByte (number s j) bs[j] := by
  obtain ⟨hlen, ts, hts, rfl⟩ := h
  have hsix : ts.length = 5 + 1 := hts.length_eq.trans hlen
  have htwo : ∀ t ∈ ts, t.length = 2 := by
    intro t ht
    obtain ⟨j, hj, rfl⟩ := List.getElem_of_mem ht
    exact (hts.get hj (hts.length_eq ▸ hj)).length
  obtain ⟨hl, hc, hn⟩ := intercalate_spec hsix htwo
  refine ⟨hl, hc, ?_⟩
  intro j hj
  rw [hn j (hts.length_eq ▸ hj)]
  exact hts.get _ hj

/-- A text is read in one way. -/
theorem MacText.unique {bs' : List (BitVec 8)} (h : MacText s bs) (h' : MacText s bs') :
    bs = bs' := by
  apply List.ext_getElem (h.1.trans h'.1.symm)
  intro j hj hj'
  exact (h.numbers.2.2 j hj).unique (h'.numbers.2.2 j hj')

theorem checkMacFormat_iff :
    checkMacFormat s = true ↔ s.length = 17 ∧ (∀ j < 5, s[3 * j + 2]? = some colon) ∧
      ∀ j < 6, 0 ≤ (strToHex (number s j)).toInt ∧ (strToHex (number s j)).toInt < 0xff := by
  have hcolons : [2, 5, 8, 11, 14] = (List.range 5).map (3 * · + 2) := rfl
  have hnumbers : [0, 3, 6, 9, 12, 15] = (List.range 6).map (3 * ·) := rfl
  unfold checkMacFormat
  rw [decide_eq_true_iff, hcolons, hnumbers, List.forall_mem_map, List.forall_mem_map]
  simp only [List.mem_range]
  rfl

/-- `check_mac_format` accepts the texts without the number `ff`. -/
theorem checkMacFormat_iff_text :
    checkMacFormat s = true ↔ ∃ bs, MacText s bs ∧ 0xff ∉ bs := by
  rw [checkMacFormat_iff]
  constructor
  · rintro ⟨hlen, hcolon, hrange⟩
    obtain ⟨ts, hts, htwo, rfl⟩ := exists_intercalate hlen hcolon
    have hnumber := (intercalate_spec hts htwo).2.2
    have hbyte : ∀ t ∈ ts, ∃ b, HexByte t b ∧ b ≠ 0xff := by
      intro t ht
      obtain ⟨j, hj, rfl⟩ := List.getElem_of_mem ht
      rw [← inRange_iff (htwo _ ht), ← hnumber j hj]
      exact hrange j (by omega)
    choose! f hf using hbyte
    refine ⟨ts.map f, ⟨by simp [hts], ts, ?_, rfl⟩, ?_⟩
    · rw [List.forall₂_map_right_iff, List.forall₂_same]
      exact fun t ht => (hf t ht).1
    · intro hmem
      obtain ⟨t, ht, hb⟩ := List.mem_map.mp hmem
      exact (hf t ht).2 hb
  · rintro ⟨bs, htext, hff⟩
    obtain ⟨hlen, hcolon, hnumber⟩ := htext.numbers
    refine ⟨hlen, hcolon, ?_⟩
    intro j hj
    have hj' : j < bs.length := htext.1 ▸ hj
    have hbyte := hnumber j hj'
    rw [inRange_iff hbyte.length]
    refine ⟨_, hbyte, ?_⟩
    intro hb
    exact hff (hb ▸ List.getElem_mem hj')

/-- The loop stores the numbers one behind the other. -/
theorem macStrToHexFrom_spec {macHex j : ℕ} {m : Bytes}
    (h : ∀ i (hi : i < bs.length), HexByte (number s (j + i)) bs[i]) (hff : 0xff ∉ bs) :
    macStrToHexFrom s macHex bs.length j m = (true, m.write (macHex + j) bs) := by
  induction bs generalizing j m with
  | nil =>
      have hnone : m.write (macHex + j) [] = m := by
        funext x
        exact write_of_outside (by simp only [List.length_nil]; omega)
      rw [hnone]
      rfl
  | cons b bs ih =>
      rw [List.mem_cons, not_or] at hff
      have hb : HexByte (number s j) b := h 0 (Nat.succ_pos _)
      have hvalue : BitVec.ofInt 8 (strToHex (number s j)).toInt = b := by
        rw [hb.strToHex, BitVec.ofInt_natCast, BitVec.ofNat_toNat, BitVec.setWidth_eq]
      have hrange := (inRange_iff hb.length).mpr ⟨b, hb, fun he => hff.1 he.symm⟩
      have hrest := ih (j := j + 1) (m := m.set (macHex + j) b) (fun i hi => by
        have := h (i + 1) (Nat.succ_lt_succ hi)
        rwa [Nat.add_right_comm, Nat.add_assoc]) hff.2
      have hround : macStrToHexFrom s macHex (bs.length + 1) j m =
          macStrToHexFrom s macHex bs.length (j + 1)
            (m.set (macHex + j) (BitVec.ofInt 8 (strToHex (number s j)).toInt)) :=
        if_pos hrange
      rw [List.length_cons, hround, hvalue, hrest, write_cons, Nat.add_assoc]

theorem MacText.convert (h : MacText s bs) (hff : 0xff ∉ bs) (macHex : ℕ) (m : Bytes) :
    macStrToHex s macHex m = (true, m.write macHex bs) := by
  have hcheck := checkMacFormat_iff_text.mpr ⟨bs, h, hff⟩
  have hloop : macStrToHexFrom s macHex bs.length 0 m = (true, m.write (macHex + 0) bs) := by
    apply macStrToHexFrom_spec ?_ hff
    intro i hi
    rw [Nat.zero_add]
    exact h.numbers.2.2 i hi
  unfold macStrToHex
  rw [if_pos hcheck, ← h.1, hloop]
  rfl

/-- Rendered numbers are a text. -/
theorem macText_renderMac (upper : Bool) (hbs : bs.length = 6) : MacText (renderMac upper bs) bs := by
  refine ⟨hbs, bs.map (renderByte upper), ?_, rfl⟩
  rw [List.forall₂_map_left_iff, List.forall₂_same]
  exact fun b _ => hexByte_renderByte upper b

end Numbers

/-! ## The two functions -/

/-- `check_mac_format` accepts `s` if it is a text of six numbers, and `mac_str_to_hex`
stores these.  Otherwise both return 0. -/
structure ParsesMac (s : CString) (macHex : ℕ) (m : Bytes) : Prop where
  check : checkMacFormat s = true ↔ ∃ bs, MacText s bs
  convert : ∀ bs, MacText s bs → macStrToHex s macHex m = (true, m.write macHex bs)
  reject : (¬∃ bs, MacText s bs) → macStrToHex s macHex m = (false, m)

/-- A string is parsed as it should be unless one of its numbers is `ff`.  So six bytes are
read back from their text if none of them is 255. -/
theorem parsesMac_iff (s : CString) (macHex : ℕ) (m : Bytes) (upper : Bool)
    (bs : Fin 6 → BitVec 8) :
    (ParsesMac s macHex m ↔ ¬∃ bs, MacText s bs ∧ 0xff ∈ bs) ∧
      (macStrToHex (renderMac upper (List.ofFn bs)) macHex m =
        (true, m.write macHex (List.ofFn bs)) ↔ ∀ i, bs i ≠ 0xff) := by
  constructor
  · constructor
    · rintro h ⟨bs, htext, hff⟩
      obtain ⟨bs', htext', hff'⟩ := checkMacFormat_iff_text.mp (h.check.mpr ⟨bs, htext⟩)
      obtain rfl := htext.unique htext'
      exact hff' hff
    · intro h
      have hff : ∀ bs, MacText s bs → 0xff ∉ bs := fun bs htext hmem => h ⟨bs, htext, hmem⟩
      refine ⟨?_, fun bs htext => htext.convert (hff bs htext) macHex m, ?_⟩
      · rw [checkMacFormat_iff_text]
        exact ⟨fun ⟨bs, htext, _⟩ => ⟨bs, htext⟩, fun ⟨bs, htext⟩ => ⟨bs, htext, hff bs htext⟩⟩
      · intro hnone
        unfold macStrToHex
        rw [if_neg]
        rw [checkMacFormat_iff_text]
        rintro ⟨bs, htext, -⟩
        exact hnone ⟨bs, htext⟩
  · have htext := macText_renderMac upper (List.length_ofFn (f := bs))
    have hmem : 0xff ∈ List.ofFn bs ↔ ∃ i, bs i = 0xff := List.mem_ofFn
    constructor
    · intro h i hi
      have hcheck : checkMacFormat (renderMac upper (List.ofFn bs)) = true := by
        by_contra hc
        unfold macStrToHex at h
        rw [if_neg hc] at h
        cases h
      obtain ⟨bs', htext', hff⟩ := checkMacFormat_iff_text.mp hcheck
      rw [← htext.unique htext'] at hff
      exact hff (hmem.mpr ⟨i, hi⟩)
    · intro h
      apply htext.convert
      rw [hmem]
      rintro ⟨i, hi⟩
      exact h i hi

/-- The address `00:11:22:33:44:ff` is not accepted. -/
theorem parsesMac_fails_at_ff :
    (∃ bs, MacText (cstr "00:11:22:33:44:ff") bs) ∧
      ¬ParsesMac (cstr "00:11:22:33:44:ff") 0 fun _ => 0 := by
  have htext : MacText (cstr "00:11:22:33:44:ff") [0x00, 0x11, 0x22, 0x33, 0x44, 0xff] := by
    have hrender : renderMac false [0x00, 0x11, 0x22, 0x33, 0x44, 0xff] =
        cstr "00:11:22:33:44:ff" := by
      decide
    rw [← hrender]
    exact macText_renderMac false rfl
  refine ⟨⟨_, htext⟩, ?_⟩
  intro h
  have hcheck : checkMacFormat (cstr "00:11:22:33:44:ff") = false := by decide
  rw [h.check.mpr ⟨_, htext⟩] at hcheck
  cases hcheck

end LuojiOs
