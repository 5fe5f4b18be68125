import LuojiOs.Support.SharedRing
import LuojiOs.Support.Masks

/-!
# The descriptors of the Ethernet controller

`synopGMAC_Dev.c`: a queue of descriptors is a ring in memory, which the driver and the controller
share.  The pointers into it are the indices of descriptors.  The driver uses the ring mode only,
so the branches of the chain mode are left out, and the offload of checksums, which is never asked
for.  A descriptor is normal, without the extended fields.
-/

namespace LuojiOs

namespace Gmac

def descOwnByDma : BitVec 32 := 0x80000000

def descError : BitVec 32 := 0x8000

def descRxFirst : BitVec 32 := 0x200

def descRxLast : BitVec 32 := 0x100

def descFrameLengthMask : BitVec 32 := 0x3fff0000

def descFrameLengthShift : ℕ := 16

/-- `DescTxFirst | DescTxLast | DescTxIntEnable` -/
def descTxFlags : BitVec 32 := 0x20000000 ||| 0x40000000 ||| 0x80000000

def rxDisIntCompl : BitVec 32 := 0x80000000

/-- `TxDescEndOfRing`, which is `RxDescEndOfRing` too. -/
def descEndOfRing : BitVec 32 := 0x02000000

def descSize1Mask : BitVec 32 := 0x7ff

def descSize2Mask : BitVec 32 := 0x3ff800

def descSize2Shift : ℕ := 11

def moduloInterrupt : ℕ := 1

/-- `TRANSMIT_DESC_SIZE` and `RECEIVE_DESC_SIZE` -/
def descSize : ℕ := 512

structure DmaDesc where
  status : BitVec 32
  length : BitVec 32
  buffer1 : BitVec 32
  buffer2 : BitVec 32
  data1 : BitVec 32
  data2 : BitVec 32
deriving DecidableEq

def isDescOwnedByDma (d : DmaDesc) : Bool := decide (d.status &&& descOwnByDma = descOwnByDma)

def isDescEmpty (d : DmaDesc) : Bool :=
  decide (d.length &&& descSize1Mask = 0 ∧ d.length &&& descSize2Mask = 0)

def isRxDescValid (status : BitVec 32) : Bool :=
  decide (status &&& descError = 0 ∧ status &&& descRxFirst = descRxFirst ∧
    status &&& descRxLast = descRxLast)

def getRxDescFrameLength (status : BitVec 32) : BitVec 32 :=
  (status &&& descFrameLengthMask) >>> descFrameLengthShift

/-- `synopGMAC_is_last_tx_desc` and `synopGMAC_is_last_rx_desc`, where `base` is the address of the
first descriptor. -/
def isLastDesc (base : BitVec 32) (d : DmaDesc) : Bool :=
  decide (d.length &&& descEndOfRing = descEndOfRing ∨ base = d.data2)

/-- `synopGMAC_tx_desc_init_ring` and `synopGMAC_rx_desc_init_ring` -/
def descInitRing (last : Bool) : DmaDesc := ⟨0, if last then descEndOfRing else 0, 0, 0, 0, 0⟩

/-- One of the two queues of `synopGMACdevice`. -/
structure Queue where
  desc : ℕ → DmaDesc
  base : BitVec 32
  next : ℕ
  nextDesc : ℕ
  busy : ℕ
  busyDesc : ℕ
  busyCount : BitVec 32

/-- The index behind that of the descriptor `d`. -/
def Queue.advance (q : Queue) (d : DmaDesc) (i : ℕ) : ℕ := if isLastDesc q.base d then 0 else i + 1

/-- `synopGMAC_setup_tx_desc_queue` and `synopGMAC_setup_rx_desc_queue` -/
def setupDescQueue (base : BitVec 32) (noOfDesc : ℕ) : Queue :=
  ⟨fun i => descInitRing (decide (i = noOfDesc - 1)), base, 0, 0, 0, 0, 0⟩

/-- What `synopGMAC_set_tx_qptr` and `synopGMAC_set_rx_qptr` have in common. -/
def setQptr (flags buffer1 length1 data1 buffer2 length2 data2 : BitVec 32) (q : Queue) :
    ℤ × Queue :=
  let d := q.desc q.nextDesc
  if isDescEmpty d then
    let d' : DmaDesc :=
      { status := descOwnByDma
        length := d.length |||
          ((length1 &&& descSize1Mask) ||| (length2 <<< descSize2Shift &&& descSize2Mask)) ||| flags
        buffer1, buffer2, data1, data2 }
    (q.next,
      { q with
        desc := Function.update q.desc q.nextDesc d'
        next := q.advance d' q.next
        nextDesc := q.advance d' q.nextDesc
        busyCount := q.busyCount + 1 })
  else (-1, q)

def setTxQptr (buffer1 length1 data1 buffer2 length2 data2 : BitVec 32) (q : Queue) : ℤ × Queue :=
  setQptr descTxFlags buffer1 length1 data1 buffer2 length2 data2 q

def setRxQptr (buffer1 length1 data1 buffer2 length2 data2 : BitVec 32) (q : Queue) : ℤ × Queue :=
  setQptr (if q.next % moduloInterrupt ≠ 0 then rxDisIntCompl else 0) buffer1 length1 data1
    buffer2 length2 data2 q

/-- `synopGMAC_get_tx_qptr` and `synopGMAC_get_rx_qptr`, with the descriptor whose fields are
returned. -/
def getQptr (q : Queue) : Option (ℕ × DmaDesc) × Queue :=
  let d := q.desc q.busyDesc
  if isDescOwnedByDma d || isDescEmpty d then (none, q)
  else
    (some (q.busy, d),
      { q with
        desc := Function.update q.desc q.busyDesc (descInitRing (isLastDesc q.base d))
        busy := q.advance d q.busy
        busyDesc := q.advance d q.busyDesc
        busyCount := q.busyCount - 1 })

/-- The controller goes on to the descriptor behind `d`. -/
def dmaNext (d : DmaDesc) (i : ℕ) : ℕ :=
  if d.length &&& descEndOfRing = descEndOfRing then 0 else i + 1

/-- The controller has dealt with a descriptor, and gives it back with a status. -/
def giveBack (st : BitVec 32) (d : DmaDesc) : DmaDesc := { d with status := st &&& ~~~descOwnByDma }

/-! ## Descriptors that are filled -/

/-- What `setQptr` makes of an empty descriptor, with one buffer. -/
def filledDesc (flags : BitVec 32) (last : Bool) (buffer1 length1 data1 : BitVec 32) : DmaDesc where
  status := descOwnByDma
  length := (if last then descEndOfRing else 0) |||
    ((length1 &&& descSize1Mask) ||| (0#32 <<< descSize2Shift &&& descSize2Mask)) ||| flags
  buffer1 := buffer1
  buffer2 := 0
  data1 := data1
  data2 := 0

/-- The flags are not among the other bits of the length. -/
def Flags (flags : BitVec 32) : Prop :=
  flags &&& descSize1Mask = 0 ∧ flags &&& descEndOfRing = 0

theorem flags_tx : Flags descTxFlags := ⟨rfl, rfl⟩

theorem flags_rx : Flags 0 := ⟨rfl, rfl⟩

variable {flags buffer1 length1 data1 base st : BitVec 32} {last : Bool}

theorem filledDesc_size (h : Flags flags) :
    (filledDesc flags last buffer1 length1 data1).length &&& descSize1Mask =
      length1 &&& descSize1Mask := by
  have hlast : (if last then descEndOfRing else 0) &&& descSize1Mask = 0#32 := by
    cases last <;> rfl
  have hsize : 0#32 <<< descSize2Shift &&& descSize2Mask = 0#32 := rfl
  unfold filledDesc
  dsimp only
  rw [BitVec.and_or_distrib_right, BitVec.and_or_distrib_right, hlast, hsize, h.1, BitVec.or_zero,
    BitVec.and_assoc, BitVec.and_self]
  simp

theorem filledDesc_end (h : Flags flags) :
    (filledDesc flags last buffer1 length1 data1).length &&& descEndOfRing =
      if last then descEndOfRing else 0 := by
  have hlast : (if last then descEndOfRing else 0) &&& descEndOfRing =
      if last then descEndOfRing else 0#32 := by
    cases last <;> rfl
  have hsize : 0#32 <<< descSize2Shift &&& descSize2Mask = 0#32 := rfl
  have hmask : descSize1Mask &&& descEndOfRing = 0 := rfl
  unfold filledDesc
  dsimp only
  rw [BitVec.and_or_distrib_right, BitVec.and_or_distrib_right, hlast, hsize, h.2, BitVec.or_zero,
    BitVec.and_assoc, hmask]
  simp

theorem owned_filledDesc :
    isDescOwnedByDma (filledDesc flags last buffer1 length1 data1) = true :=
  decide_eq_true BitVec.and_self

theorem not_owned_giveBack (d : DmaDesc) : isDescOwnedByDma (giveBack st d) = false := by
  have hzero : st &&& ~~~descOwnByDma &&& descOwnByDma = 0 := by
    rw [BitVec.and_assoc, show ~~~descOwnByDma &&& descOwnByDma = 0#32 from rfl]
    exact BitVec.and_zero
  refine decide_eq_false fun h => ?_
  rw [show (giveBack st d).status = st &&& ~~~descOwnByDma from rfl, hzero] at h
  cases h

theorem not_owned_descInitRing : isDescOwnedByDma (descInitRing last) = false := by
  cases last <;> rfl

theorem not_empty_filledDesc (h : Flags flags) (hlength : length1 &&& descSize1Mask ≠ 0) :
    isDescEmpty (filledDesc flags last buffer1 length1 data1) = false := by
  refine decide_eq_false fun hempty => hlength ?_
  rw [← hempty.1, filledDesc_size h]

theorem isLastDesc_filledDesc (h : Flags flags) (hbase : base ≠ 0) :
    isLastDesc base (filledDesc flags last buffer1 length1 data1) = last := by
  unfold isLastDesc
  rw [filledDesc_end h]
  have hdata : ¬base = (filledDesc flags last buffer1 length1 data1).data2 := hbase
  cases last with
  | false => exact decide_eq_false fun hor => hor.elim (fun hend => by cases hend) hdata
  | true => exact decide_eq_true (Or.inl rfl)

/-! ## The ring -/

/-- A buffer that is given to the controller. -/
structure Buf where
  buffer1 : BitVec 32
  length1 : BitVec 32
  data1 : BitVec 32

/-- The descriptor at the position `p`, when it has been filled with `e`. -/
def Buf.desc (flags : BitVec 32) (size p : ℕ) (e : Buf) : DmaDesc :=
  filledDesc flags (decide (p % size = size - 1)) e.buffer1 e.length1 e.data1

def Waiting (flags : BitVec 32) (size : ℕ) (L : List Buf) (p : ℕ) (d : DmaDesc) : Prop :=
  ∃ e, L[p]? = some e ∧ d = e.desc flags size p

def Dealt (flags : BitVec 32) (size : ℕ) (L : List Buf) (S : List (BitVec 32)) (p : ℕ)
    (d : DmaDesc) : Prop :=
  ∃ e st, L[p]? = some e ∧ S[p]? = some st ∧ d = giveBack st (e.desc flags size p)

def Free (size i : ℕ) (d : DmaDesc) : Prop := d = descInitRing (decide (i = size - 1))

/-- Of the buffers `L` that have been given to the controller, it has dealt with the first ones,
with the results `S`, and the driver has taken back the first `taken` of these. -/
structure Shares (flags : BitVec 32) (size : ℕ) (q : Queue) (cur : ℕ) (L : List Buf)
    (S : List (BitVec 32)) (taken : ℕ) : Prop where
  base : q.base ≠ 0
  pos : 0 < size
  holds : SharedRing.Holds size q.desc (Dealt flags size L S) (Waiting flags size L) (Free size)
    taken S.length L.length
  next : q.next = L.length % size
  nextDesc : q.nextDesc = L.length % size
  busy : q.busy = taken % size
  busyDesc : q.busyDesc = taken % size
  cur : cur = S.length % size
  count : q.busyCount = BitVec.ofNat 32 (L.length - taken)
  sizes : ∀ e ∈ L, e.length1 &&& descSize1Mask ≠ 0

variable {size cur taken : ℕ} {q : Queue} {L : List Buf} {S : List (BitVec 32)}

theorem shares_setup (hbase : base ≠ 0) (hpos : 0 < size) :
    Shares flags size (setupDescQueue base size) 0 [] [] 0 where
  base := hbase
  pos := hpos
  holds := ⟨le_rfl, le_rfl, Nat.zero_le _, nofun, nofun, fun p _ hp => by
    rw [Nat.mod_eq_of_lt (hp.trans_eq (Nat.zero_add _))]
    rfl⟩
  next := (Nat.zero_mod _).symm
  nextDesc := (Nat.zero_mod _).symm
  busy := (Nat.zero_mod _).symm
  busyDesc := (Nat.zero_mod _).symm
  cur := (Nat.zero_mod _).symm
  count := rfl
  sizes := nofun

theorem Shares.advance (h : Shares flags size q cur L S taken) (hflags : Flags flags) (p : ℕ)
    (e : Buf) : q.advance (e.desc flags size p) (p % size) = (p + 1) % size := by
  unfold Queue.advance Buf.desc
  rw [isLastDesc_filledDesc hflags h.base, SharedRing.succ_mod h.pos]
  exact if_congr decide_eq_true_iff rfl rfl

theorem dmaNext_desc (hflags : Flags flags) (hpos : 0 < size) (p : ℕ) (e : Buf) :
    dmaNext (e.desc flags size p) (p % size) = (p + 1) % size := by
  unfold dmaNext Buf.desc
  rw [filledDesc_end hflags, SharedRing.succ_mod hpos]
  by_cases hlast : p % size = size - 1
  · rw [if_pos hlast, decide_eq_true hlast]
    rfl
  · rw [if_neg hlast, decide_eq_false hlast]
    rfl

/-- A descriptor that the controller has dealt with, or that waits for it, is not empty. -/
theorem Shares.not_empty (h : Shares flags size q cur L S taken) (hflags : Flags flags) {p : ℕ}
    {e : Buf} (he : L[p]? = some e) : isDescEmpty (e.desc flags size p) = false :=
  not_empty_filledDesc hflags (h.sizes e (List.mem_of_getElem? he))

/-- The ring is full: the driver finds a descriptor that is not empty. -/
theorem Shares.set_full (h : Shares flags size q cur L S taken) (hflags : Flags flags)
    (hfull : L.length = taken + size) (flags' buffer1 length1 data1 buffer2 length2 data2) :
    setQptr flags' buffer1 length1 data1 buffer2 length2 data2 q = (-1, q) := by
  have hpos := h.pos
  have hempty : isDescEmpty (q.desc q.nextDesc) = false := by
    rw [h.nextDesc, hfull, Nat.add_mod_right]
    rcases Nat.lt_or_ge taken S.length with hlt | hge
    · obtain ⟨e, st, he, -, hd⟩ := h.holds.dealt taken le_rfl hlt
      rw [hd]
      exact h.not_empty hflags he
    · obtain ⟨e, he, hd⟩ := h.holds.waiting taken hge (by omega)
      rw [hd]
      exact h.not_empty hflags he
  unfold setQptr
  dsimp only
  rw [hempty, if_neg Bool.false_ne_true]

theorem waiting_append {p : ℕ} {d : DmaDesc} (h : Waiting flags size L p d) (e : Buf) :
    Waiting flags size (L ++ [e]) p d := by
  obtain ⟨e', he, hd⟩ := h
  exact ⟨e', List.getElem?_append_left (List.getElem?_eq_some_iff.mp he).1 ▸ he, hd⟩

theorem dealt_append {p : ℕ} {d : DmaDesc} (h : Dealt flags size L S p d) (e : Buf) :
    Dealt flags size (L ++ [e]) S p d := by
  obtain ⟨e', st, he, hst, hd⟩ := h
  exact ⟨e', st, List.getElem?_append_left (List.getElem?_eq_some_iff.mp he).1 ▸ he, hst, hd⟩

theorem dealt_concat {p : ℕ} {d : DmaDesc} (h : Dealt flags size L S p d) (st : BitVec 32) :
    Dealt flags size L (S ++ [st]) p d := by
  obtain ⟨e, st', he, hst, hd⟩ := h
  exact ⟨e, st', he, List.getElem?_append_left (List.getElem?_eq_some_iff.mp hst).1 ▸ hst, hd⟩

/-- There is room: the buffer is given to the controller. -/
theorem Shares.set (h : Shares flags size q cur L S taken) (hflags : Flags flags)
    (hroom : L.length < taken + size) (e : Buf) (he : e.length1 &&& descSize1Mask ≠ 0) :
    (setQptr flags e.buffer1 e.length1 e.data1 0 0 0 q).1 = q.next ∧
      Shares flags size (setQptr flags e.buffer1 e.length1 e.data1 0 0 0 q).2 cur (L ++ [e]) S
        taken := by
  have hfree : q.desc q.nextDesc = descInitRing (decide (L.length % size = size - 1)) := by
    rw [h.nextDesc]
    exact h.holds.free L.length le_rfl hroom
  have hempty : isDescEmpty (q.desc q.nextDesc) = true := by
    rw [hfree]
    cases decide (L.length % size = size - 1) <;> rfl
  have hdesc : (setQptr flags e.buffer1 e.length1 e.data1 0 0 0 q) = ((q.next : ℤ),
      { q with
        desc := Function.update q.desc q.nextDesc (e.desc flags size L.length)
        next := q.advance (e.desc flags size L.length) q.next
        nextDesc := q.advance (e.desc flags size L.length) q.nextDesc
        busyCount := q.busyCount + 1 }) := by
    unfold setQptr
    dsimp only
    rw [hempty, if_pos rfl, hfree]
    rfl
  have hlast : (L ++ [e])[L.length]? = some e := by
    rw [List.getElem?_append_right le_rfl, Nat.sub_self]
    rfl
  have hlength : (L ++ [e]).length = L.length + 1 := List.length_append
  rw [hdesc]
  refine ⟨rfl, ⟨h.base, h.pos, ?_, ?_, ?_, h.busy, h.busyDesc, h.cur, ?_, fun x hx => ?_⟩⟩
  · have hmono := h.holds.mono (fun p v _ _ hv => dealt_append hv e)
      (fun p v _ _ hv => waiting_append hv e)
    dsimp only
    rw [hlength, h.nextDesc]
    exact hmono.fill hroom ⟨e, hlast, rfl⟩
  · dsimp only
    rw [hlength, h.next, h.advance hflags]
  · dsimp only
    rw [hlength, h.nextDesc, h.advance hflags]
  · have hle := h.holds.taken_le.trans h.holds.closed_le
    dsimp only
    rw [h.count, hlength, Nat.sub_add_comm hle, BitVec.ofNat_add]
    rfl
  · rcases List.mem_append.mp hx with hx | hx
    · exact h.sizes x hx
    · obtain rfl := List.mem_singleton.mp hx
      exact he

/-- Nothing is dealt with: there is nothing to take back. -/
theorem Shares.get_none (h : Shares flags size q cur L S taken) (hnone : taken = S.length) :
    getQptr q = (none, q) := by
  have hsome :
      (isDescOwnedByDma (q.desc q.busyDesc) || isDescEmpty (q.desc q.busyDesc)) = true := by
    rw [h.busyDesc]
    rcases Nat.lt_or_ge taken L.length with hlt | hge
    · obtain ⟨e, he, hd⟩ := h.holds.waiting taken hnone.ge hlt
      rw [hd]
      exact Bool.or_eq_true_iff.mpr (Or.inl owned_filledDesc)
    · have hfree := h.holds.free taken hge (Nat.lt_add_of_pos_right h.pos)
      rw [hfree]
      cases decide (taken % size = size - 1) <;> rfl
  unfold getQptr
  dsimp only
  rw [hsome, if_pos rfl]

/-- The first buffer that is dealt with is taken back. -/
theorem Shares.get (h : Shares flags size q cur L S taken) (hflags : Flags flags)
    (hsome : taken < S.length) :
    ∃ e st, L[taken]? = some e ∧ S[taken]? = some st ∧
      (getQptr q).1 = some (q.busy, giveBack st (e.desc flags size taken)) ∧
      Shares flags size (getQptr q).2 cur L S (taken + 1) := by
  obtain ⟨e, st, he, hst, hd⟩ := h.holds.dealt taken le_rfl hsome
  have hempty : isDescEmpty (giveBack st (e.desc flags size taken)) = false :=
    h.not_empty hflags he
  have hadvance : q.advance (giveBack st (e.desc flags size taken)) (taken % size) =
      (taken + 1) % size := h.advance hflags taken e
  have hget : getQptr q = (some (q.busy, giveBack st (e.desc flags size taken)),
      { q with
        desc := Function.update q.desc q.busyDesc
          (descInitRing (isLastDesc q.base (giveBack st (e.desc flags size taken))))
        busy := q.advance (giveBack st (e.desc flags size taken)) q.busy
        busyDesc := q.advance (giveBack st (e.desc flags size taken)) q.busyDesc
        busyCount := q.busyCount - 1 }) := by
    unfold getQptr
    dsimp only
    rw [h.busyDesc, hd, not_owned_giveBack, hempty, Bool.or_false, if_neg Bool.false_ne_true]
  have hfilled : isLastDesc q.base (e.desc flags size taken) = decide (taken % size = size - 1) :=
    isLastDesc_filledDesc hflags h.base
  have hlast : isLastDesc q.base (giveBack st (e.desc flags size taken)) =
      decide (taken % size = size - 1) := hfilled
  refine ⟨e, st, he, hst, by rw [hget], ?_⟩
  rw [hget]
  refine ⟨h.base, h.pos, ?_, h.next, h.nextDesc, ?_, ?_, h.cur, ?_, h.sizes⟩
  · dsimp only
    rw [h.busyDesc, hlast]
    exact h.holds.take hsome rfl
  · dsimp only
    rw [h.busy, hadvance]
  · dsimp only
    rw [h.busyDesc, hadvance]
  · have hle := h.holds.closed_le
    dsimp only
    rw [h.count, show L.length - taken = L.length - (taken + 1) + 1 by omega, BitVec.ofNat_add]
    exact BitVec.add_sub_cancel _ _

/-- The controller owns its next descriptor if a buffer waits. -/
theorem Shares.cur_owned (h : Shares flags size q cur L S taken) :
    isDescOwnedByDma (q.desc cur) = true ↔ S.length < L.length := by
  rw [h.cur]
  constructor
  · intro howned
    refine Nat.lt_of_not_le fun hle => ?_
    have hfalse : isDescOwnedByDma (q.desc (S.length % size)) = false := by
      rcases Nat.lt_or_ge S.length (taken + size) with hlt | hge
      · rw [h.holds.free S.length hle hlt]
        exact not_owned_descInitRing
      · have hclosed := h.holds.closed_le
        have hfilled := h.holds.filled_le
        have hpos := h.pos
        have heq : S.length = taken + size := by omega
        obtain ⟨e, st, -, -, hd⟩ := h.holds.dealt taken le_rfl (by omega)
        rw [heq, Nat.add_mod_right, hd]
        exact not_owned_giveBack _
    rw [hfalse] at howned
    cases howned
  · intro hlt
    obtain ⟨e, -, hd⟩ := h.holds.waiting S.length le_rfl hlt
    rw [hd]
    exact owned_filledDesc

/-- The controller deals with the buffer that waits first. -/
theorem Shares.dma (h : Shares flags size q cur L S taken) (hflags : Flags flags)
    (hsome : S.length < L.length) (st : BitVec 32) :
    ∃ e, L[S.length]? = some e ∧ q.desc cur = e.desc flags size S.length ∧
      Shares flags size { q with desc := Function.update q.desc cur (giveBack st (q.desc cur)) }
        (dmaNext (q.desc cur) cur) L (S ++ [st]) taken := by
  obtain ⟨e, he, hd⟩ := h.holds.waiting S.length le_rfl hsome
  have hlast : (S ++ [st])[S.length]? = some st := by
    rw [List.getElem?_append_right le_rfl, Nat.sub_self]
    rfl
  have hlength : (S ++ [st]).length = S.length + 1 := List.length_append
  rw [← h.cur] at hd
  refine ⟨e, he, hd, h.base, h.pos, ?_, h.next, h.nextDesc, h.busy, h.busyDesc, ?_, h.count,
    h.sizes⟩
  · have hmono := h.holds.mono (fun p v _ _ hv => dealt_concat hv st) fun p v _ _ hv => hv
    dsimp only
    rw [hlength, hd, h.cur]
    exact hmono.close hsome ⟨e, st, he, hlast, rfl⟩
  · rw [hlength, hd, h.cur, dmaNext_desc hflags h.pos]

/-- The controller owns the descriptor that the driver is to fill next, if the ring is full and
nothing is dealt with. -/
theorem Shares.next_owned (h : Shares flags size q cur L S taken) :
    isDescOwnedByDma (q.desc q.nextDesc) = true ↔ L.length = taken + size ∧ taken = S.length := by
  have hpos := h.pos
  have htaken := h.holds.taken_le
  have hclosed := h.holds.closed_le
  have hfilled := h.holds.filled_le
  rw [h.nextDesc]
  rcases Nat.lt_or_ge L.length (taken + size) with hlt | hge
  · have hfalse : isDescOwnedByDma (q.desc (L.length % size)) = false := by
      rw [h.holds.free L.length le_rfl hlt]
      exact not_owned_descInitRing
    rw [hfalse]
    exact ⟨fun hno => absurd hno Bool.false_ne_true, fun hyes => by omega⟩
  · rw [show L.length = taken + size by omega, Nat.add_mod_right]
    rcases Nat.lt_or_ge taken S.length with hdealt | hnone
    · obtain ⟨e, st, -, -, hd⟩ := h.holds.dealt taken le_rfl hdealt
      rw [hd, not_owned_giveBack]
      exact ⟨fun hno => absurd hno Bool.false_ne_true, fun hyes => by omega⟩
    · obtain ⟨e, -, hd⟩ := h.holds.waiting taken hnone (by omega)
      rw [hd, Buf.desc, owned_filledDesc]
      exact ⟨fun _ => ⟨rfl, le_antisymm htaken hnone⟩, fun _ => rfl⟩

end Gmac

end LuojiOs
