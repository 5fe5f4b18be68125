import LuojiOs.Mtd.Cmdlinepart
import LuojiOs.Mtd.Survival

/-!
# Partition strings

Strings written by the grammar `id:size[@offset][(name)],...` are read back by
`mtdpart_setup_real`, as long as the offsets are numbers of 32 bits and there is memory for the
entries.
-/

namespace LuojiOs

namespace Mtd

open Devfs Numerals Parse Devices

/-! ## The grammar -/

/-- A decimal number with a suffix, or without one. -/
structure Quantity where
  number : ℕ
  suffix : Option (BitVec 8)
  isSuffix : ∀ c ∈ suffix, suffixShift c ≠ 0

namespace Quantity

def amount (q : Quantity) : ℕ := q.number * 2 ^ (q.suffix.map suffixShift).getD 0

def text (q : Quantity) : CString := render digitSymbol 10 q.number ++ q.suffix.toList

end Quantity

/-- A partition as it is asked for. -/
structure Definition where
  size : Quantity
  offset : Option Quantity
  name : Option CString
  le_size : PAGE_SIZE ≤ size.amount
  size_lt : size.amount < SIZE_REMAINING.toNat
  name_fits : ∀ n ∈ name, n.length < realnameSize ∧ closeParen ∉ n

namespace Definition

def offsetText (offset : Option Quantity) : CString :=
  match offset with
  | none => []
  | some offset => atSign :: offset.text

def nameText (name : Option CString) : CString :=
  match name with
  | none => []
  | some name => openParen :: name ++ [closeParen]

def text (p : Definition) : CString := p.size.text ++ (offsetText p.offset ++ nameText p.name)

/-- The place of a partition, behind partitions that end at `next`. -/
def place (p : Definition) (next : ℕ) : ℕ := (p.offset.map Quantity.amount).getD next

/-- The name of the partition with the number `i`. -/
def nameAt (p : Definition) (i : ℕ) : CString :=
  p.name.getD (cstr "mtd" ++ render digitSymbol 10 i)

end Definition

/-- The definitions, separated by commas. -/
def listText : List Definition → CString
  | [] => []
  | [p] => p.text
  | p :: q :: ps => p.text ++ comma :: listText (q :: ps)

/-- The partitions that are asked for, from the number `i` on. -/
def requested (mtdidx : ℕ) : ℕ → ℕ → List Definition → List Mtdfile
  | _, _, [] => []
  | next, i, p :: ps =>
    { refs := 0
      index := mtdidx
      partSize := p.size.amount
      partOffset := p.place next
      name := p.nameAt i } ::
      requested (mtdidx + 1) ((p.place next + p.size.amount) % 2 ^ 32) (i + 1) ps

variable {mtd : ℕ} {mtdSize : BitVec 32} {malloc : BitVec 32 → Option ℕ} {s t : CString}
  {st : Cmdline} {n : ℕ} {c : BitVec 8}

/-! ## Numbers -/

/-- What may stand behind a number. -/
def Stops (t : CString) : Prop := ∀ c, t.head? = some c → isDigitOf 10 c = false ∧ isX c = false

theorem digitValue_digitSymbol : ∀ d < 10, digitValue (digitSymbol d) = some d := by decide

theorem isDigitOf_eight (hc : isDigitOf 8 c = true) : isDigitOf 10 c = true := by
  obtain ⟨d, hlt, hd⟩ := isDigit_iff.mp hc
  exact isDigit_iff.mpr ⟨d, by omega, hd⟩

theorem handleSign_of_digit {b : ℕ} (hc : isDigitOf b c = true) :
    handleSign ((c :: s).dropWhile isspace) = (false, c :: s) := by
  obtain ⟨hspace, hplus, hminus⟩ := not_lead_of_isDigitOf hc
  rw [List.dropWhile_cons_of_neg (by simp [hspace])]
  exact if_neg (not_or.mpr ⟨hplus, hminus⟩)

/-- A string of digits with something else behind it. -/
theorem strtoul_digits {p : CString} {b : ℕ} (hb : plainBase 0 (c :: p ++ t) = b)
    (hp : ∀ d ∈ c :: p, isDigitOf b d = true) (hx : c = zero → p = [])
    (ht : ∀ d, t.head? = some d → isDigitOf b d = false ∧ isX d = false)
    (hvalue : value digitValue b (c :: p) ≤ ULONG_MAX) :
    Parse.strtoul (c :: p ++ t) 0 = ⟨value digitValue b (c :: p), false, t⟩ := by
  have hsign := @handleSign_of_digit (p ++ t) c b (hp c List.mem_cons_self)
  have hbody : body (c :: p ++ t) = c :: p ++ t := congrArg Prod.snd hsign
  have hdigits : digitsOf b (c :: p ++ t) = c :: p := by
    unfold digitsOf
    rw [List.takeWhile_append_of_pos hp]
    have hnil : digitsOf b t = [] := digitsOf_eq_nil_iff.mpr fun d hd => (ht d hd).1
    exact (congrArg _ hnil).trans (List.append_nil _)
  have hrest : (c :: p ++ t).dropWhile (isDigitOf b) = t := by
    rw [List.dropWhile_append_of_pos hp]
    exact dropWhile_eq_self fun d hd => (ht d hd).1
  have hprefix : ∀ x r, c :: p ++ t = zero :: x :: r → (0 = 0 ∨ 0 = 16) →
      x ≠ lowerX ∧ (0 = 0 → x ≠ upperX) := by
    intro x r hs _
    rw [List.cons_append] at hs
    obtain ⟨hc, htail⟩ := List.cons.inj hs
    rw [hx hc, List.nil_append] at htail
    have hfalse : isX x = false := (ht x (by rw [htail]; rfl)).2
    have hneither := of_decide_eq_false hfalse
    exact ⟨fun h => hneither (Or.inl h), fun _ h => hneither (Or.inr h)⟩
  rw [strtoul_eq handleBase_pos, hbody, readCode_plain hprefix, hb, hdigits, hrest]
  have hsign' : (handleSign ((c :: p ++ t).dropWhile isspace)).1 = false := congrArg Prod.fst hsign
  have hle : ¬ULONG_MAX < value digitValue b (c :: p) := Nat.not_lt.mpr hvalue
  rw [hsign', decide_eq_false hle, valueOf, if_neg hle, if_neg Bool.false_ne_true]

/-- Decimal numbers are read back; zero is read as an octal number. -/
theorem strtoul_render (hn : n < 2 ^ 32) (ht : Stops t) :
    Parse.strtoul (render digitSymbol 10 n ++ t) 0 = ⟨n, false, t⟩ := by
  have hle : n ≤ ULONG_MAX := Nat.le_pred_of_lt hn
  by_cases hzero : n = 0
  · subst hzero
    refine @strtoul_digits t zero [] 8 rfl ?_ (fun _ => rfl) ?_ (Nat.zero_le _)
    · intro d hd
      rw [List.mem_singleton.mp hd]
      rfl
    · intro d hd
      obtain ⟨hdigit, hx⟩ := ht d hd
      refine ⟨?_, hx⟩
      by_contra height
      rw [isDigitOf_eight (Bool.of_not_eq_false height)] at hdigit
      cases hdigit
  · have hvalue := @value_render _ digitValue 10 n digitSymbol (by decide) digitValue_digitSymbol
    have hall : ∀ d ∈ render digitSymbol 10 n, isDigitOf 10 d = true := fun d hd =>
      isDigit_of_mem_render (by decide) digitValue_digitSymbol hd
    obtain ⟨d, u, hpos, hlt, hrender⟩ := @render_eq_cons_zero _ 10 n digitSymbol (by decide) hzero
    have hne : digitSymbol d ≠ zero := by
      intro hsym
      have hd := digitValue_digitSymbol d hlt
      rw [hsym] at hd
      exact absurd (Option.some.inj hd) (Nat.ne_of_lt hpos)
    rw [hrender] at hvalue hall ⊢
    have hread := @strtoul_digits t (digitSymbol d) u 10 (plainBase_zero_cons hne) hall
      (fun h => absurd h hne) ht (by rw [hvalue]; exact hle)
    rwa [hvalue] at hread

/-! ## Quantities -/

/-- What may stand behind a quantity. -/
def Ends (t : CString) : Prop := Stops t ∧ ∀ c, t.head? = some c → suffixShift c = 0

theorem stops_suffix (hc : suffixShift c ≠ 0) : Stops (c :: t) := by
  have hall : ∀ c : BitVec 8, suffixShift c ≠ 0 → isDigitOf 10 c = false ∧ isX c = false := by
    intro c hc
    unfold suffixShift at hc
    split at hc
    · next h => rcases h with rfl | rfl <;> decide
    split at hc
    · next h => rcases h with rfl | rfl <;> decide
    split at hc
    · next h => rcases h with rfl | rfl <;> decide
    · exact absurd rfl hc
  intro d hd
  obtain rfl := Option.some.inj hd
  exact hall c hc

theorem Quantity.number_le (q : Quantity) : q.number ≤ q.amount :=
  Nat.le_mul_of_pos_right _ (Nat.two_pow_pos _)

/-- A quantity is read back. -/
theorem memparse_text {q : Quantity} (hq : q.amount < 2 ^ 32) (ht : Ends t) :
    memparse (q.text ++ t) = (BitVec.ofNat 64 q.amount, t) := by
  have hnumber : q.number < 2 ^ 32 := q.number_le.trans_lt hq
  unfold memparse Quantity.text
  rw [List.append_assoc]
  cases hsuffix : q.suffix with
  | none =>
      have hamount : q.amount = q.number := by
        unfold Quantity.amount
        rw [hsuffix]
        exact Nat.mul_one _
      rw [Option.toList_none, List.nil_append, strtoul_render hnumber ht.1, hamount]
      cases t with
      | nil => rfl
      | cons c t => exact if_pos (ht.2 c rfl)
  | some c =>
      have hc := q.isSuffix c hsuffix
      have hamount : q.amount = q.number * 2 ^ suffixShift c := by
        unfold Quantity.amount
        rw [hsuffix]
        rfl
      rw [Option.toList_some, List.singleton_append, strtoul_render hnumber (stops_suffix hc)]
      dsimp only
      rw [if_neg hc, hamount]
      refine Prod.ext (BitVec.eq_of_toNat_eq ?_) rfl
      rw [BitVec.toNat_shiftLeft, BitVec.toNat_ofNat, BitVec.toNat_ofNat, Nat.shiftLeft_eq,
        Nat.mod_mul_mod]

theorem Quantity.exists_text (q : Quantity) :
    ∃ c u, q.text = c :: u ∧ isDigitOf 10 c = true := by
  unfold Quantity.text
  cases hrender : render digitSymbol 10 q.number with
  | nil => exact absurd hrender render_ne_nil
  | cons c u =>
      refine ⟨c, u ++ q.suffix.toList, rfl, ?_⟩
      have hc : c ∈ render digitSymbol 10 q.number := hrender ▸ List.mem_cons_self
      exact isDigit_of_mem_render (by decide) digitValue_digitSymbol hc

/-! ## The parts of a definition -/

/-- What may stand behind a definition. -/
def Follows (t : CString) : Prop := t = [] ∨ ∃ u, t = comma :: u

theorem ends_cons (hc : c ∈ [atSign, openParen, comma]) : Ends (c :: t) := by
  have hall : ∀ c ∈ [atSign, openParen, comma],
      (isDigitOf 10 c = false ∧ isX c = false) ∧ suffixShift c = 0 := by decide
  constructor
  · intro d hd
    obtain rfl := Option.some.inj hd
    exact (hall c hc).1
  · intro d hd
    obtain rfl := Option.some.inj hd
    exact (hall c hc).2

theorem Follows.ends (ht : Follows t) : Ends t := by
  rcases ht with rfl | ⟨u, rfl⟩
  · exact ⟨nofun, nofun⟩
  · exact ends_cons (by decide)

theorem Follows.head_ne (ht : Follows t) : t.head? ≠ some atSign ∧ t.head? ≠ some openParen := by
  rcases ht with rfl | ⟨u, rfl⟩
  · exact ⟨nofun, nofun⟩
  · exact ⟨fun h => absurd (Option.some.inj h) (by decide),
      fun h => absurd (Option.some.inj h) (by decide)⟩

open Definition

theorem ends_nameText (name : Option CString) (ht : Follows t) :
    Ends (nameText name ++ t) ∧ (nameText name ++ t).head? ≠ some atSign := by
  cases name with
  | none => exact ⟨ht.ends, ht.head_ne.1⟩
  | some name =>
      exact ⟨ends_cons (by decide), fun h => absurd (Option.some.inj h) (by decide)⟩

theorem ends_offsetText (offset : Option Quantity) (name : Option CString) (ht : Follows t) :
    Ends (offsetText offset ++ (nameText name ++ t)) := by
  cases offset with
  | none => exact (ends_nameText name ht).1
  | some offset => exact ends_cons (by decide)

theorem fetchSize_text {q : Quantity} (hle : PAGE_SIZE ≤ q.amount) (hlt : q.amount < 2 ^ 32)
    (ht : Ends t) : fetchSize (q.text ++ t) = some (BitVec.ofNat 32 q.amount, t) := by
  obtain ⟨c, u, htext, hc⟩ := q.exists_text
  have hdash : (q.text ++ t).head? ≠ some dash := by
    rw [htext]
    intro hhead
    rw [Option.some.inj hhead] at hc
    exact absurd hc (by decide)
  have hsize : (BitVec.ofNat 64 q.amount).setWidth 32 = BitVec.ofNat 32 q.amount := by
    rw [BitVec.setWidth_ofNat_of_le (by decide)]
  have hlarge : ¬(BitVec.ofNat 32 q.amount).toNat < PAGE_SIZE := by
    rw [BitVec.toNat_ofNat, Nat.mod_eq_of_lt hlt]
    exact Nat.not_lt.mpr hle
  unfold fetchSize
  rw [if_neg hdash, memparse_text hlt ht]
  dsimp only
  rw [hsize, if_neg hlarge]

theorem fetchOffset_text {offset : Option Quantity} {mtdOffset : BitVec 32}
    (hoffset : ∀ q ∈ offset, q.amount < 2 ^ 32) (ht : Ends t) (hhead : t.head? ≠ some atSign) :
    fetchOffset mtdOffset (offsetText offset ++ t) =
      (BitVec.ofNat 32 ((offset.map Quantity.amount).getD mtdOffset.toNat), t) := by
  unfold fetchOffset
  cases offset with
  | none =>
      rw [offsetText, List.nil_append, if_neg hhead, Option.map_none, Option.getD_none,
        BitVec.ofNat_toNat, BitVec.setWidth_eq]
  | some q =>
      have hat : (offsetText (some q) ++ t).head? = some atSign := rfl
      have htail : (offsetText (some q) ++ t).tail = q.text ++ t := rfl
      rw [if_pos hat, htail, memparse_text (hoffset q rfl) ht]
      dsimp only
      rw [BitVec.setWidth_ofNat_of_le (by decide), Option.map_some, Option.getD_some]

theorem fetchName_text {name : Option CString} {i : ℕ} (hi : i < 2 ^ 31)
    (hname : ∀ n ∈ name, closeParen ∉ n) (ht : Follows t) :
    fetchName (BitVec.ofNat 32 i) (nameText name ++ t) =
      some (name.getD (cstr "mtd" ++ render digitSymbol 10 i), t) := by
  unfold fetchName
  cases name with
  | none =>
      have hint : (BitVec.ofNat 32 i).toInt = i := by
        rw [BitVec.toInt_eq_toNat_of_lt] <;> rw [BitVec.toNat_ofNat, Nat.mod_eq_of_lt (by omega)]
        omega
      have hprint : sprintfInt i = render digitSymbol 10 i := by
        unfold sprintfInt
        rw [if_neg (by omega), Int.natAbs_natCast]
      rw [nameText, List.nil_append, if_neg ht.head_ne.2, hint, hprint, Option.getD_none]
  | some name =>
      have hopen : (nameText (some name) ++ t).head? = some openParen := rfl
      have htail : (nameText (some name) ++ t).tail = name ++ closeParen :: t := by
        unfold nameText
        simp
      have hne : ∀ c ∈ name, decide (c ≠ closeParen) = true := fun c hc =>
        decide_eq_true fun heq => hname name rfl (heq ▸ hc)
      rw [if_pos hopen, htail, if_pos (by simp), List.takeWhile_append_of_pos hne,
        List.dropWhile_append_of_pos hne, List.takeWhile_cons_of_neg (by decide),
        List.dropWhile_cons_of_neg (by decide), List.append_nil, Option.getD_some, List.tail_cons]

/-! ## Definitions and lists of them -/

theorem uint32_toInt (b : BitVec 32) : uint32 b.toInt = b.toNat := by
  have hmod : b.toInt % 2 ^ 32 = b.toNat := by
    rw [BitVec.toInt_eq_toNat_bmod]
    have hlt := b.isLt
    have hmod := @Int.bmod_emod b.toNat (2 ^ 32)
    omega
  unfold uint32
  rw [hmod, Int.toNat_natCast]

/-- What is registered for a definition. -/
def entryOf (mtd mtdidx next i : ℕ) (p : Definition) : Entry where
  mtd := mtd
  file :=
    { refs := 0
      index := mtdidx
      partSize := p.size.amount
      partOffset := p.place next
      name := p.nameAt i }

theorem newEntry_eq {p : Definition} {mtdidx next i : ℕ} (hplace : p.place next < 2 ^ 32) :
    newEntry mtdidx mtd mtdSize.toNat (BitVec.ofNat 32 (p.place next)).toInt
      (BitVec.ofNat 32 p.size.amount).toInt (p.nameAt i) = entryOf mtd mtdidx next i p := by
  have hlt : p.size.amount < 2 ^ 32 := p.size_lt.trans (by decide)
  have hsize : uint32 (BitVec.ofNat 32 p.size.amount).toInt = p.size.amount := by
    rw [uint32_toInt, BitVec.toNat_ofNat, Nat.mod_eq_of_lt hlt]
  have hoffset : uint32 (BitVec.ofNat 32 (p.place next)).toInt = p.place next := by
    rw [uint32_toInt, BitVec.toNat_ofNat, Nat.mod_eq_of_lt hplace]
  have hne : (BitVec.ofNat 32 p.size.amount).toInt ≠ 0 := by
    intro hzero
    rw [hzero] at hsize
    have hle := p.le_size
    rw [← hsize] at hle
    exact absurd hle (by decide)
  unfold newEntry entryOf
  rw [if_pos hne, hsize, hoffset]

theorem place_lt {p : Definition} {next : ℕ} (hoffset : ∀ q ∈ p.offset, q.amount < 2 ^ 32)
    (hnext : next < 2 ^ 32) : p.place next < 2 ^ 32 := by
  unfold Definition.place
  cases hq : p.offset with
  | none => exact hnext
  | some q => exact hoffset q hq

theorem nameAt_length {p : Definition} {i : ℕ} (hi : i < 2 ^ 31) :
    (p.nameAt i).length < realnameSize := by
  unfold nameAt
  cases hname : p.name with
  | some name => exact (p.name_fits name hname).1
  | none =>
      have hlength : (render digitSymbol 10 i).length ≤ 10 := by
        unfold render
        split
        · exact Nat.succ_le_succ (Nat.zero_le 9)
        · rw [List.length_map, List.length_reverse]
          exact (Nat.digits_length_le_iff (by decide) i).mpr (by omega)
      have hmtd : (cstr "mtd").length = 3 := by decide
      rw [Option.getD_none, List.length_append, hmtd]
      exact Nat.lt_of_le_of_lt (Nat.add_le_add_left hlength 3) (by decide)

/-- A definition is registered before the rest of the string is looked at. -/
theorem newpart_text {p : Definition} {next i : ℕ} {s : Devices}
    (hoffset : ∀ q ∈ p.offset, q.amount < 2 ^ 32) (hnext : next < 2 ^ 32) (hi : i < 2 ^ 31)
    (ht : Follows t) :
    newpart mtd mtdSize malloc (p.text ++ t) ⟨BitVec.ofNat 32 next, BitVec.ofNat 32 i, s⟩ =
      (s.addMtdDevice (malloc (BitVec.ofNat 32 i)) mtd mtdSize.toNat
        (BitVec.ofNat 32 (p.place next)).toInt (BitVec.ofNat 32 p.size.amount).toInt
        (p.nameAt i)).map fun r =>
        if t.head? = some comma then
          (some t, ⟨BitVec.ofNat 32 (p.place next + p.size.amount), BitVec.ofNat 32 (i + 1), r.2⟩)
        else (none, ⟨BitVec.ofNat 32 (p.place next), BitVec.ofNat 32 (i + 1), r.2⟩) := by
  have hsize := fetchSize_text p.le_size (p.size_lt.trans (by decide))
    (ends_offsetText p.offset p.name ht)
  obtain ⟨hends, hhead⟩ := ends_nameText p.name ht
  have hat := @fetchOffset_text _ p.offset (BitVec.ofNat 32 next) hoffset hends hhead
  have hname := fetchName_text hi (fun n hn => (p.name_fits n hn).2) ht
  have hplace : (p.offset.map Quantity.amount).getD (BitVec.ofNat 32 next).toNat = p.place next := by
    rw [BitVec.toNat_ofNat, Nat.mod_eq_of_lt hnext]
    rfl
  have hsizeNe : BitVec.ofNat 32 p.size.amount ≠ SIZE_REMAINING := by
    intro heq
    have hlt := p.size_lt
    rw [← heq, BitVec.toNat_ofNat] at hlt
    exact absurd hlt (Nat.not_lt.mpr (Nat.mod_le _ _))
  have hfits : ¬realnameSize ≤ (p.nameAt i).length := Nat.not_le.mpr (nameAt_length hi)
  unfold newpart Definition.text
  rw [List.append_assoc, List.append_assoc, hsize]
  dsimp only
  rw [hat, hname, hplace]
  dsimp only
  have hdefault : p.name.getD (cstr "mtd" ++ render digitSymbol 10 i) = p.nameAt i := rfl
  have hthis : BitVec.ofNat 32 (i + 1) = BitVec.ofNat 32 i + 1 := BitVec.ofNat_add i 1
  rw [hdefault, if_neg hfits, if_neg hsizeNe, ← BitVec.ofNat_add, hthis]

/-- There is memory for `n` more entries, from the number `i` on. -/
structure Supplies (malloc : BitVec 32 → Option ℕ) (s : Devices) (i n : ℕ) : Prop where
  fresh : ∀ j, i ≤ j → j < i + n → ∃ rmp, malloc (BitVec.ofNat 32 j) = some rmp ∧
    s.entries rmp = none
  distinct : ∀ j k, i ≤ j → j < k → k < i + n →
    malloc (BitVec.ofNat 32 j) ≠ malloc (BitVec.ofNat 32 k)

/-- The memory of one entry has been used. -/
theorem Supplies.tail {s s' : Devices} {parts : List Part} {rmp i n : ℕ} {entry : Entry}
    (hmalloc : Supplies malloc s i (n + 1)) (hi : malloc (BitVec.ofNat 32 i) = some rmp)
    (h : s.Intact parts) (h' : s'.Intact (parts ++ [(rmp, entry)])) :
    Supplies malloc s' (i + 1) n where
  fresh j hj hlt := by
    obtain ⟨rmp', hrmp', hnone⟩ := hmalloc.fresh j (by omega) (by omega)
    refine ⟨rmp', hrmp', ?_⟩
    cases hentry : s'.entries rmp' with
    | none => rfl
    | some entry' =>
        rcases List.mem_append.mp ((h'.entries _ _).mp hentry) with hmem | hmem
        · cases hnone.symm.trans ((h.entries _ _).mpr hmem)
        · obtain ⟨rfl, -⟩ := Prod.mk.inj (List.mem_singleton.mp hmem)
          exact absurd (hi.trans hrmp'.symm)
            (hmalloc.distinct i j (Nat.le_refl i) (by omega) (by omega))
  distinct j k hj hjk hk := hmalloc.distinct j k (by omega) hjk (by omega)

theorem listText_cons (p : Definition) (ps : List Definition) :
    ∃ t, listText (p :: ps) = p.text ++ t ∧
      (ps = [] ∧ t = [] ∨ ps ≠ [] ∧ t = comma :: listText ps) := by
  cases ps with
  | nil => exact ⟨[], (List.append_nil _).symm, Or.inl ⟨rfl, rfl⟩⟩
  | cons q ps => exact ⟨comma :: listText (q :: ps), rfl, Or.inr ⟨List.cons_ne_nil _ _, rfl⟩⟩

/-- The loop registers the definitions of a list one by one. -/
theorem setupLoop_listText {ps : List Definition} (hne : ps ≠ [])
    (hoffset : ∀ p ∈ ps, ∀ q ∈ p.offset, q.amount < 2 ^ 32) {rounds : ℕ}
    (hrounds : ps.length ≤ rounds) {i : ℕ} (hi : i + ps.length ≤ 2 ^ 31) {next : ℕ}
    (hnext : next < 2 ^ 32) {s : Devices} {parts : List Part} (h : s.Intact parts)
    (hmalloc : Supplies malloc s i ps.length) (delimiter : BitVec 8) :
    ∃ st' new, setupLoop mtd mtdSize malloc rounds (delimiter :: listText ps)
        ⟨BitVec.ofNat 32 next, BitVec.ofNat 32 i, s⟩ = some st' ∧
      st'.devices.Intact (parts ++ new) ∧
      new.map (fun part => part.2.file) = requested s.mtdidx next i ps ∧
      ∀ part ∈ new, part.2.mtd = mtd := by
  induction ps generalizing rounds i next s parts delimiter with
  | nil => exact absurd rfl hne
  | cons p ps ih =>
      obtain ⟨rounds, rfl⟩ : ∃ k, rounds = k + 1 := ⟨rounds - 1, by
        rw [List.length_cons] at hrounds
        omega⟩
      rw [List.length_cons] at hrounds hi hmalloc
      obtain ⟨rmp, hrmp, hfresh⟩ := hmalloc.fresh i (Nat.le_refl i) (by omega)
      have hoffset' := hoffset p List.mem_cons_self
      have hplace := place_lt hoffset' hnext
      obtain ⟨s', hadd, h', hidx⟩ := @Intact.addMtdDevice s parts rmp mtd mtdSize.toNat
        (BitVec.ofNat 32 (p.place next)).toInt (BitVec.ofNat 32 p.size.amount).toInt
        (p.nameAt i) h hfresh
      rw [newEntry_eq hplace] at h'
      have hmalloc' := hmalloc.tail hrmp h h'
      obtain ⟨t, htext, ht⟩ := listText_cons p ps
      have hfollows : Follows t := ht.imp And.right fun h => ⟨_, h.2⟩
      have hnew := @newpart_text mtd mtdSize malloc t p next i s hoffset' hnext (by omega) hfollows
      rw [← htext, hrmp, hadd, Option.map_some] at hnew
      unfold setupLoop
      rw [List.tail_cons, hnew]
      rcases ht with ⟨rfl, rfl⟩ | ⟨hne', rfl⟩
      · exact ⟨_, [(rmp, entryOf mtd s.mtdidx next i p)], rfl, h', rfl,
          fun part hpart => List.mem_singleton.mp hpart ▸ rfl⟩
      · have hnext' : BitVec.ofNat 32 (p.place next + p.size.amount) =
            BitVec.ofNat 32 ((p.place next + p.size.amount) % 2 ^ 32) :=
          BitVec.eq_of_toNat_eq (by rw [BitVec.toNat_ofNat, BitVec.toNat_ofNat, Nat.mod_mod])
        have hcomma : (comma :: listText ps).head? = some comma := rfl
        rw [if_pos hcomma, hnext']
        obtain ⟨st', new, hloop, hintact, hfiles, hmtd⟩ := ih hne'
          (fun q hq => hoffset q (List.mem_cons_of_mem _ hq)) (Nat.le_of_succ_le_succ hrounds)
          (by omega) (Nat.mod_lt _ (by decide)) h' hmalloc' comma
        refine ⟨st', (rmp, entryOf mtd s.mtdidx next i p) :: new, hloop, ?_, ?_, ?_⟩
        · rwa [List.append_assoc] at hintact
        · rw [List.map_cons, hfiles, hidx]
          rfl
        · intro part hpart
          rcases List.mem_cons.mp hpart with rfl | hpart
          · rfl
          · exact hmtd part hpart

theorem length_text_pos (p : Definition) : 0 < p.text.length := by
  obtain ⟨c, u, htext, -⟩ := p.size.exists_text
  unfold Definition.text
  rw [htext, List.cons_append, List.length_cons]
  exact Nat.zero_lt_succ _

theorem length_listText (ps : List Definition) : 2 * ps.length ≤ (listText ps).length + 1 := by
  induction ps with
  | nil => exact Nat.zero_le _
  | cons p ps ih =>
      obtain ⟨t, htext, ht⟩ := listText_cons p ps
      have hpos := length_text_pos p
      rw [htext, List.length_append, List.length_cons]
      rcases ht with ⟨rfl, rfl⟩ | ⟨-, rfl⟩
      · rw [List.length_nil]
        omega
      · rw [List.length_cons]
        omega

/-- What is asked for is registered, in that order, behind what was registered before. -/
theorem mtdpartSetupReal_listText {id : CString} (hid : colonSign ∉ id) {ps : List Definition}
    (hne : ps ≠ []) (hlen : (id ++ colonSign :: listText ps).length < 2 ^ 32)
    (hoffset : ∀ p ∈ ps, ∀ q ∈ p.offset, q.amount < 2 ^ 32) {s : Devices} {parts : List Part}
    (h : s.Intact parts) (hmalloc : Supplies malloc s 0 ps.length) :
    ∃ st' new, mtdpartSetupReal mtd mtdSize malloc (id ++ colonSign :: listText ps) ⟨0, 0, s⟩ =
        some (0, st') ∧
      st'.devices.Intact (parts ++ new) ∧
      new.map (fun part => part.2.file) = requested s.mtdidx 0 0 ps ∧
      ∀ part ∈ new, part.2.mtd = mtd := by
  have hcount := length_listText ps
  have hlength : (id ++ colonSign :: listText ps).length = id.length + (listText ps).length + 1 := by
    rw [List.length_append, List.length_cons, Nat.add_assoc]
  rw [hlength] at hlen
  obtain ⟨st', new, hloop, hnew⟩ := @setupLoop_listText mtd mtdSize malloc ps hne hoffset
    (id ++ colonSign :: listText ps).length (by omega) 0 (by omega) 0 (by decide) s parts h hmalloc
    colonSign
  have hbehind : (id ++ colonSign :: listText ps).dropWhile (· ≠ colonSign) =
      colonSign :: listText ps := by
    have hall : ∀ c ∈ id, decide (c ≠ colonSign) = true := fun c hc =>
      decide_eq_true fun heq => hid (heq ▸ hc)
    rw [List.dropWhile_append_of_pos hall, List.dropWhile_cons_of_neg (by decide)]
  refine ⟨st', new, ?_, hnew⟩
  unfold mtdpartSetupReal
  rw [if_pos (List.mem_append_right _ List.mem_cons_self), hbehind]
  exact congrArg (Option.map (Prod.mk 0)) hloop

/-! ## Two partitions, and what cannot be read back -/

/-- `4K` -/
def fourK : Quantity := ⟨4, some 0x4b, by decide⟩

/-- An offset that does not fit into 32 bits. -/
def pastEnd : Quantity := ⟨2 ^ 32, none, by decide⟩

def exampleAt (offset : Option Quantity) : Definition where
  size := fourK
  offset := offset
  name := none
  le_size := by decide
  size_lt := by decide
  name_fits := nofun

theorem mtdpartSetupReal_listText_two :
    ∃ st' new, mtdpartSetupReal 7 0x8000000 (fun i => some (i.toNat + 1))
        (cstr "nand" ++ colonSign :: listText [exampleAt (some fourK), exampleAt none])
        ⟨0, 0, Devices.init⟩ = some (0, st') ∧
      st'.devices.Intact ([] ++ new) ∧
      new.map (fun part => part.2.file) =
        requested 0 0 0 [exampleAt (some fourK), exampleAt none] ∧
      ∀ part ∈ new, part.2.mtd = 7 := by
  refine mtdpartSetupReal_listText (by decide) (by decide) ?_ ?_ intact_init ⟨?_, ?_⟩
  · decide
  · intro p hp q hq
    rcases List.mem_cons.mp hp with rfl | hp
    · obtain rfl := Option.some.inj hq
      decide
    · obtain rfl := List.mem_singleton.mp hp
      cases hq
  · exact fun j _ _ => ⟨_, rfl, rfl⟩
  · intro j k _ hjk hk
    have hk' : k < 2 := by simpa using hk
    obtain rfl : j = 0 := by omega
    obtain rfl : k = 1 := by omega
    decide

/-- An offset beyond 32 bits is registered as the last address, and without memory nothing is
registered. -/
theorem mtdpartSetupReal_not_listText :
    ((mtdpartSetupReal 7 0x8000000 (fun i => some (i.toNat + 1))
          (cstr "nand" ++ colonSign :: listText [exampleAt (some pastEnd)])
          ⟨0, 0, Devices.init⟩).map fun r => (r.2.devices.entries 1).map Entry.file) =
        some (some ⟨0, 0, 4096, 0xffffffff, cstr "mtd0"⟩) ∧
      requested 0 0 0 [exampleAt (some pastEnd)] = [⟨0, 0, 4096, 2 ^ 32, cstr "mtd0"⟩] ∧
      ((mtdpartSetupReal 7 0x8000000 (fun _ => none)
          (cstr "nand" ++ colonSign :: listText [exampleAt none])
          ⟨0, 0, Devices.init⟩).map fun r => (r.1, r.2.devices.lhFirst)) = some (0, none) ∧
      requested 0 0 0 [exampleAt none] = [⟨0, 0, 4096, 0, cstr "mtd0"⟩] := by
  decide +kernel

end Mtd

end LuojiOs
