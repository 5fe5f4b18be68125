import LuojiOs.Heap.Clients

/-!
# The download of the firmware

`tftpOpenEntry` reads a file to a buffer on the heap and hands the buffer to `tgt_flashprogram`.
The buffer grows by 100 KB when the bytes that were read do not fit.  It grows once, whatever
their number is, so that a read of more than 100 KB may leave the buffer.  How much is read at a
time is a global variable, which the shell can change: `readTmp` keeps the size it was allocated
with, and a longer read leaves it.  As long as no read does either, what is burnt is what was read.

Left out are the messages and the file descriptor.  Between the calls of `memset`, `read` and
`memcpy` the other threads may call the heap functions and write to their blocks.
-/

namespace LuojiOs

/-! ## The program -/

/-- The local variables of `tftpOpenEntry`, with the size that `readTmp` was allocated with. -/
structure TftpLocals where
  tmpSize : BitVec 32
  bufPt : BitVec 32
  readTmp : BitVec 32
  deriving DecidableEq, Repr

/-- Where the thread of the download is. -/
inductive TftpThread
  | none
  /-- at the `memset` of `readTmp` -/
  | clears (v : TftpLocals)
  /-- at the call of `read` -/
  | reads (v : TftpLocals)
  /-- at the call of `memcpy` -/
  | copies (v : TftpLocals) (retSize : BitVec 32)
  deriving DecidableEq, Repr

def TftpThread.locals : TftpThread → Option TftpLocals
  | .none => Option.none
  | .clears v => some v
  | .reads v => some v
  | .copies v _ => some v

structure TftpSys where
  heap : HeapSys
  tftpEveryReadSize : BitVec 32
  tftpBufSize : BitVec 32
  /-- `tftpOpenfile.recvBuf` -/
  recvBuf : BitVec 32
  /-- `tftpOpenfile.recvLen` -/
  recvLen : BitVec 32
  thread : TftpThread
  /-- what was handed to `tgt_flashprogram` -/
  flashed : List (List (BitVec 8))

inductive TftpEvent
  /-- `tftpOpen` creates the thread, and `open` returns `fd`. -/
  | start (fd : ℤ)
  /-- a command of the shell -/
  | setTftpEverySize (size : BitVec 32)
  | memset
  /-- `read` has put `chunk` to its buffer and returns `retSize`. -/
  | read (retSize : BitVec 32) (chunk : List (BitVec 8))
  | memcpy
  /-- Another thread calls a heap function or writes to a block of its own. -/
  | other (e : HeapEvent)
  deriving DecidableEq, Repr

namespace TftpSys

/-- `tftpOpenEntry` up to its loop, after `tftpOpen` has cleared `tftpOpenfile`. -/
def start (fd : ℤ) (s : TftpSys) : Option TftpSys :=
  let s := { s with recvBuf := 0, recvLen := 0 }
  if -1 < fd then do
    let (bufPt, h) ← s.heap.mallocs s.tftpBufSize
    let h := h.withBytes (Bytes.fill h.heap.bytes bufPt.toNat 0 s.tftpBufSize.toNat)
    let (readTmp, h) ← h.mallocs s.tftpEveryReadSize
    return { s with
      heap := h, recvBuf := bufPt, thread := .clears ⟨s.tftpEveryReadSize, bufPt, readTmp⟩ }
  else return s

/-- `memset(readTmp, 0, tftpEveryReadSize)`, with the size that the variable has now. -/
def clear (v : TftpLocals) (s : TftpSys) : TftpSys :=
  let m := Bytes.fill s.heap.heap.bytes v.readTmp.toNat 0 s.tftpEveryReadSize.toNat
  { s with heap := s.heap.withBytes m, thread := .reads v }

/-- `free(readTmp); free(tftpOpenfile.recvBuf);` -/
def release (readTmp : BitVec 32) (s : TftpSys) : Option TftpSys := do
  let h ← s.heap.frees readTmp
  let h ← h.frees s.recvBuf
  return { s with heap := h, thread := .none }

/-- `read` has put `chunk` to its buffer. -/
def filled (v : TftpLocals) (chunk : List (BitVec 8)) (s : TftpSys) : TftpSys :=
  { s with heap := s.heap.withBytes (s.heap.heap.bytes.write v.readTmp.toNat chunk) }

/-- The round of the loop up to `memcpy`. -/
def grow (v : TftpLocals) (retSize : BitVec 32) (s : TftpSys) : Option TftpSys :=
  let s := { s with recvLen := s.recvLen + retSize }
  if s.tftpBufSize < s.recvLen then do
    let s := { s with tftpBufSize := s.tftpBufSize + 100 * 1024 }
    let (newMem, h) ← s.heap.reallocs s.recvBuf s.tftpBufSize
    let v := { v with bufPt := newMem + s.recvLen - retSize }
    return { s with heap := h, recvBuf := newMem, thread := .copies v retSize }
  else return { s with thread := .copies v retSize }

/-- What follows when `read` has returned. -/
def received (v : TftpLocals) (retSize : BitVec 32) (s : TftpSys) : Option TftpSys :=
  if retSize = -1 then s.release v.readTmp
  else if retSize.toInt < 1 then
    let image := s.heap.heap.bytes.slice s.recvBuf.toNat s.recvLen.toNat
    { s with flashed := s.flashed ++ [image] }.release v.readTmp
  else s.grow v retSize

def copy (v : TftpLocals) (retSize : BitVec 32) (s : TftpSys) : TftpSys :=
  let m := Bytes.copy s.heap.heap.bytes v.bufPt.toNat v.readTmp.toNat retSize.toNat
  { s with heap := s.heap.withBytes m, thread := .reads { v with bufPt := v.bufPt + retSize } }

/-- The blocks of the thread. -/
def owned (s : TftpSys) : List (BitVec 32) :=
  s.thread.locals.elim [] fun v => [s.recvBuf, v.readTmp]

/-- The event is about none of the blocks of the thread. -/
def spares (s : TftpSys) (e : HeapEvent) : Bool := s.owned.all fun p => decide (e.subject ≠ some p)

/-- `read` returns the number of the bytes that it has put to its buffer, or a number below 1. -/
def Returns (s : TftpSys) (retSize : BitVec 32) (chunk : List (BitVec 8)) : Prop :=
  chunk.length ≤ s.tftpEveryReadSize.toNat ∧ (0 < retSize.toInt → chunk.length = retSize.toNat)

instance (s : TftpSys) (retSize : BitVec 32) (chunk : List (BitVec 8)) :
    Decidable (Returns s retSize chunk) :=
  inferInstanceAs (Decidable (_ ∧ _))

/-- One event.  The sizes that the other threads ask for can be aligned, and they know nothing of
the blocks of the download. -/
def step (s : TftpSys) : TftpEvent → Option TftpSys
  | .start fd =>
    match s.thread with
    | .none => s.start fd
    | _ => none
  | .setTftpEverySize size => some { s with tftpEveryReadSize := size }
  | .memset =>
    match s.thread with
    | .clears v => some (s.clear v)
    | _ => none
  | .read retSize chunk =>
    match s.thread with
    | .reads v =>
      if s.Returns retSize chunk then (s.filled v chunk).received v retSize else none
    | _ => none
  | .memcpy =>
    match s.thread with
    | .copies v retSize => some (s.copy v retSize)
    | _ => none
  | .other e =>
    if e.Fits ∧ s.spares e = true then
      (s.heap.step e).map fun h => { s with heap := h }
    else none

/-- The system has just been started. -/
def Boot (s : TftpSys) : Prop :=
  s.heap.Fresh ∧ s.tftpEveryReadSize = 512 ∧ s.tftpBufSize = 100 * 1024 ∧ s.thread = .none ∧
    s.flashed = []

/-- `memcpy` writes to the present block of the buffer, and reads from the block of `readTmp`. -/
def MemcpyInside (s : TftpSys) : Prop :=
  ∀ v retSize, s.thread = .copies v retSize →
    ⟨s.recvBuf, s.tftpBufSize.toNat⟩ ∈ s.heap.live ∧ s.recvBuf.toNat ≤ v.bufPt.toNat ∧
      v.bufPt.toNat + retSize.toNat ≤ s.recvBuf.toNat + s.tftpBufSize.toNat ∧
      ⟨v.readTmp, v.tmpSize.toNat⟩ ∈ s.heap.live ∧ retSize.toNat ≤ v.tmpSize.toNat

/-- So many bytes fit in `readTmp`. -/
def TmpHolds (s : TftpSys) (n : ℕ) : Prop := ∀ v ∈ s.thread.locals, n ≤ v.tmpSize.toNat

instance (s : TftpSys) (n : ℕ) : Decidable (s.TmpHolds n) :=
  inferInstanceAs (Decidable (∀ v ∈ s.thread.locals, n ≤ v.tmpSize.toNat))

/-- `readTmp` has room for what `read` brings, one growth is enough for it, and the size of
`readTmp` can be aligned. -/
def Keeps (s : TftpSys) : TftpEvent → Prop
  | .start _ => s.tftpEveryReadSize.toNat + 7 < 2 ^ 32
  | .memset => s.TmpHolds s.tftpEveryReadSize.toNat
  | .read retSize chunk => s.TmpHolds chunk.length ∧
    (0 < retSize.toInt → s.recvLen.toNat + retSize.toNat ≤ s.tftpBufSize.toNat + 100 * 1024)
  | _ => True

instance (s : TftpSys) : DecidablePred s.Keeps
  | .start _ => inferInstanceAs (Decidable (s.tftpEveryReadSize.toNat + 7 < 2 ^ 32))
  | .setTftpEverySize _ => inferInstanceAs (Decidable True)
  | .memset => inferInstanceAs (Decidable (s.TmpHolds s.tftpEveryReadSize.toNat))
  | .read retSize chunk => inferInstanceAs (Decidable (s.TmpHolds chunk.length ∧
    (0 < retSize.toInt → s.recvLen.toNat + retSize.toNat ≤ s.tftpBufSize.toNat + 100 * 1024)))
  | .memcpy => inferInstanceAs (Decidable True)
  | .other _ => inferInstanceAs (Decidable True)

end TftpSys

/-! ## The images -/

/-- What the downloads are to bring: the bytes that were read in this one, and the images that
are to be burnt. -/
structure Firmware where
  received : List (BitVec 8)
  images : List (List (BitVec 8))
  deriving DecidableEq, Repr

/-- A download starts anew, the chunks are joined in their order, and the end of the file makes
an image of them. -/
def Firmware.after (i : Firmware) : TftpEvent → Firmware
  | .start _ => { i with received := [] }
  | .read retSize chunk =>
    if retSize = -1 then i
    else if retSize.toInt < 1 then { i with images := i.images ++ [i.received] }
    else { i with received := i.received ++ chunk }
  | _ => i

def firmware (es : List TftpEvent) : Firmware := es.foldl Firmware.after ⟨[], []⟩

/-! ## The invariant -/

namespace TftpSys

/-- The buffer begins with the bytes `l`, and the bytes `d` are in `readTmp`. -/
structure Blocks (s : TftpSys) (v : TftpLocals) (l d : List (BitVec 8)) : Prop where
  buffer : s.heap.Owns s.recvBuf s.tftpBufSize.toNat l
  temp : s.heap.Owns v.readTmp v.tmpSize.toNat d
  apart : s.recvBuf ≠ v.readTmp
  bufPt : v.bufPt.toNat = s.recvBuf.toNat + l.length

/-- At most 100 KB are read at a time, and no download has begun with another size. -/
structure Small (s : TftpSys) : Prop where
  le : s.tftpEveryReadSize.toNat ≤ 100 * 1024
  same : ∀ v ∈ s.thread.locals, v.tmpSize = s.tftpEveryReadSize

/-- The size is set to 100 KB at most, and between the downloads only. -/
def Sets (s : TftpSys) : TftpEvent → Prop
  | .setTftpEverySize size => size.toNat ≤ 100 * 1024 ∧ s.thread = .none
  | _ => True

instance (s : TftpSys) : DecidablePred s.Sets
  | .setTftpEverySize size =>
    inferInstanceAs (Decidable (size.toNat ≤ 100 * 1024 ∧ s.thread = .none))
  | .start _ => inferInstanceAs (Decidable True)
  | .memset => inferInstanceAs (Decidable True)
  | .read _ _ => inferInstanceAs (Decidable True)
  | .memcpy => inferInstanceAs (Decidable True)
  | .other _ => inferInstanceAs (Decidable True)

structure Invariant (s : TftpSys) (i : Firmware) : Prop where
  sound : s.heap.Sound
  /-- The buffer was grown last when the heap had room for both sizes. -/
  bufSize : 2 * s.tftpBufSize.toNat < 2 ^ 32 + 102400
  flashed : s.flashed = i.images
  reads : ∀ v, s.thread = .clears v ∨ s.thread = .reads v →
    s.Blocks v i.received [] ∧ s.recvLen.toNat = i.received.length
  copies : ∀ v retSize, s.thread = .copies v retSize →
    ∃ l d, i.received = l ++ d ∧ d.length = retSize.toNat ∧ s.Blocks v l d ∧
      s.recvLen.toNat = i.received.length ∧ i.received.length ≤ s.tftpBufSize.toNat

section Steps

variable {s s' : TftpSys} {i : Firmware} {v : TftpLocals} {retSize size : BitVec 32} {fd : ℤ}
  {l d chunk : List (BitVec 8)} {e : HeapEvent}

theorem toNat_growth : (100 * 1024 : BitVec 32).toNat = 102400 := rfl

theorem Invariant.of_none (hthread : s.thread = .none) (hsound : s.heap.Sound)
    (hsize : 2 * s.tftpBufSize.toNat < 2 ^ 32 + 102400) (hflashed : s.flashed = i.images) :
    s.Invariant i := by
  refine ⟨hsound, hsize, hflashed, ?_, ?_⟩
  · rintro v (hv | hv)
    · cases hthread.symm.trans hv
    · cases hthread.symm.trans hv
  · intro v retSize hv
    cases hthread.symm.trans hv

theorem Invariant.boot (h : s.Boot) : s.Invariant ⟨[], []⟩ := by
  obtain ⟨hfresh, -, hsize, hthread, hflashed⟩ := h
  apply Invariant.of_none hthread (Holds.of_fresh hfresh) ?_ hflashed
  rw [hsize, toNat_growth]
  omega

/-! ## The other threads -/

theorem Blocks.other {h : HeapSys} (hb : s.Blocks v l d) (hsound : s.heap.Sound) (he : e.Fits)
    (hs : s.heap.step e = some h) (hown : ∀ p ∈ [s.recvBuf, v.readTmp], e.subject ≠ some p) :
    Blocks { s with heap := h } v l d where
  buffer := hb.buffer.kept hsound he hs (hown _ (by simp))
  temp := hb.temp.kept hsound he hs (hown _ (by simp))
  apart := hb.apart
  bufPt := hb.bufPt

theorem Invariant.other (h : s.Invariant i) (hs : s.step (.other e) = some s') :
    s'.Invariant i := by
  simp only [step] at hs
  split at hs
  · next hguard =>
    obtain ⟨hfit, hspares⟩ := hguard
    obtain ⟨g, hg, rfl⟩ := Option.map_eq_some_iff.mp hs
    have hown : ∀ p ∈ s.owned, e.subject ≠ some p := by
      intro p hp
      exact of_decide_eq_true (List.all_eq_true.mp hspares p hp)
    unfold owned at hown
    refine ⟨h.sound.step hfit hg, h.bufSize, h.flashed, ?_, ?_⟩
    · intro v hthread
      obtain ⟨hb, hlen⟩ := h.reads v hthread
      have hlocals : s.thread.locals = some v := by
        rcases hthread with hthread | hthread
        · exact congrArg TftpThread.locals hthread
        · exact congrArg TftpThread.locals hthread
      rw [hlocals] at hown
      exact ⟨hb.other h.sound hfit hg hown, hlen⟩
    · intro v retSize hthread
      obtain ⟨l, d, hl, hd, hb, hlen, hroom⟩ := h.copies v retSize hthread
      dsimp only at hthread
      rw [hthread] at hown
      exact ⟨l, d, hl, hd, hb.other h.sound hfit hg hown, hlen, hroom⟩
  · cases hs

/-! ## The begin and the end of a download -/

theorem Invariant.start (h : s.Invariant i) (hfit : s.tftpEveryReadSize.toNat + 7 < 2 ^ 32)
    (hthread : s.thread = .none) (hs : s.start fd = some s') :
    s'.Invariant { i with received := [] } := by
  have hsize := h.bufSize
  simp only [TftpSys.start] at hs
  split at hs
  · obtain ⟨⟨bufPt, h₁⟩, hbuf, hs⟩ := Option.bind_eq_some_iff.mp hs
    obtain ⟨⟨readTmp, h₃⟩, htmp, hs⟩ := Option.bind_eq_some_iff.mp hs
    obtain rfl := Option.some.inj hs
    obtain ⟨hsound, hbuffer, -⟩ := HeapSys.mallocs_spec h.sound (by omega) hbuf
    obtain ⟨hsound, hbuffer, -⟩ := HeapSys.withBytes_spec hsound hbuffer (d := [])
      (Nat.zero_le _) (fun x hx => Bytes.fill_of_outside hx) trivial
    obtain ⟨hsound, htemp, hkept⟩ := HeapSys.mallocs_spec hsound hfit htmp
    obtain ⟨hbuffer, hne⟩ := hkept _ _ _ hbuffer
    refine ⟨hsound, h.bufSize, h.flashed, ?_, nofun⟩
    rintro v (hv | hv)
    · obtain rfl := TftpThread.clears.inj hv
      exact ⟨⟨hbuffer, htemp.nil, hne, rfl⟩, rfl⟩
    · cases hv
  · obtain rfl := Option.some.inj hs
    exact Invariant.of_none hthread h.sound h.bufSize h.flashed

theorem Invariant.resized (h : s.Invariant i) :
    Invariant { s with tftpEveryReadSize := size } i := by
  refine ⟨h.sound, h.bufSize, h.flashed, ?_, ?_⟩
  · intro v hthread
    obtain ⟨⟨hbuffer, htemp, hne, hbufPt⟩, hlen⟩ := h.reads v hthread
    exact ⟨⟨hbuffer, htemp, hne, hbufPt⟩, hlen⟩
  · intro v retSize hthread
    obtain ⟨l, d, hl, hd, ⟨hbuffer, htemp, hne, hbufPt⟩, hlen, hroom⟩ := h.copies v retSize hthread
    exact ⟨l, d, hl, hd, ⟨hbuffer, htemp, hne, hbufPt⟩, hlen, hroom⟩

/-- `memset` clears a part of `readTmp`. -/
theorem Invariant.clear (h : s.Invariant i) (hfit : s.TmpHolds s.tftpEveryReadSize.toNat)
    (hthread : s.thread = .clears v) : (s.clear v).Invariant i := by
  obtain ⟨hb, hlen⟩ := h.reads v (Or.inl hthread)
  have hle : s.tftpEveryReadSize.toNat ≤ v.tmpSize.toNat := by
    apply hfit
    rw [hthread]
    exact rfl
  obtain ⟨hsound, htemp, hkept⟩ := HeapSys.withBytes_spec h.sound hb.temp (d := [])
    (m := Bytes.fill s.heap.heap.bytes v.readTmp.toNat 0 s.tftpEveryReadSize.toNat)
    (Nat.zero_le _) (fun x hx => Bytes.fill_of_outside (by omega)) trivial
  refine ⟨hsound, h.bufSize, h.flashed, ?_, nofun⟩
  rintro v' (hv | hv)
  · cases hv
  · obtain rfl := TftpThread.reads.inj hv
    exact ⟨⟨hkept _ _ _ hb.apart hb.buffer, htemp, hb.apart, hb.bufPt⟩, hlen⟩

theorem Invariant.release (hs : s.release v.readTmp = some s') (hsound : s.heap.Sound)
    (hb : s.Blocks v l d) (hsize : 2 * s.tftpBufSize.toNat < 2 ^ 32 + 102400)
    (hflashed : s.flashed = i.images) : s'.Invariant i := by
  unfold TftpSys.release at hs
  obtain ⟨h₁, htmp, hs⟩ := Option.bind_eq_some_iff.mp hs
  obtain ⟨h₂, hbuf, hs⟩ := Option.bind_eq_some_iff.mp hs
  obtain rfl := Option.some.inj hs
  obtain ⟨hsound, hkept⟩ := HeapSys.frees_spec hsound hb.temp htmp
  obtain ⟨hsound, -⟩ := HeapSys.frees_spec hsound (hkept _ _ _ hb.apart hb.buffer) hbuf
  exact Invariant.of_none rfl hsound hsize hflashed

/-! ## The rounds -/

/-- A read has returned `retSize` bytes: the buffer keeps its bytes `l`, and has room for the others
if one growth is enough. -/
structure Grows (s s' : TftpSys) (v : TftpLocals) (retSize : BitVec 32) (l d : List (BitVec 8)) :
    Prop where
  thread : s'.thread = .copies v retSize
  sound : s'.heap.Sound
  bufSize : 2 * s'.tftpBufSize.toNat < 2 ^ 32 + 102400
  flashed : s'.flashed = s.flashed
  blocks : s'.Blocks v l d
  recvLen : s'.recvLen = s.recvLen + retSize
  room : l.length + retSize.toNat ≤ s'.tftpBufSize.toNat ↔
    l.length + retSize.toNat ≤ s.tftpBufSize.toNat + 102400

theorem Blocks.grow (hb : s.Blocks v l d) (hsound : s.heap.Sound)
    (hsize : 2 * s.tftpBufSize.toNat < 2 ^ 32 + 102400) (hlen : s.recvLen.toNat = l.length)
    (hs : s.grow v retSize = some s') : ∃ v', Grows s s' v' retSize l d := by
  have hle := hb.buffer.le
  have hgrowth := toNat_growth
  have hsum : (s.recvLen + retSize).toNat = (l.length + retSize.toNat) % 2 ^ 32 := by
    rw [BitVec.toNat_add, hlen]
  simp only [TftpSys.grow] at hs
  split at hs
  · next hmore =>
    rw [BitVec.lt_def, hsum] at hmore
    obtain ⟨⟨newMem, g⟩, hg, hs⟩ := Option.bind_eq_some_iff.mp hs
    obtain rfl := Option.some.inj hs
    have hnew : (s.tftpBufSize + 100 * 1024).toNat = s.tftpBufSize.toNat + 102400 := by
      rw [BitVec.toNat_add, hgrowth, Nat.mod_eq_of_lt (by omega)]
    have hfit : (s.tftpBufSize + 100 * 1024).toNat + 7 < 2 ^ 32 := by omega
    have htwice := HeapSys.reallocs_room hsound hb.buffer (by omega) hfit hg
    obtain ⟨hsound', hbuffer, hkept⟩ := HeapSys.reallocs_spec hsound hb.buffer hfit (by omega) hg
    obtain ⟨htemp, hne⟩ := hkept _ _ _ hb.apart.symm hb.temp
    have hbound := hbuffer.bound hsound'
    refine ⟨_, rfl, hsound', ?_, rfl, ⟨hbuffer, htemp, hne.symm, ?_⟩, rfl, ?_⟩
    · dsimp only
      omega
    · dsimp only
      rw [← BitVec.add_assoc, BitVec.add_sub_cancel, BitVec.toNat_add, hlen,
        Nat.mod_eq_of_lt (by omega)]
    · dsimp only
      rw [hnew]
  · next hmore =>
    rw [BitVec.lt_def, hsum] at hmore
    obtain rfl := Option.some.inj hs
    have hr := retSize.isLt
    exact ⟨v, rfl, hsound, hsize, rfl, ⟨hb.buffer, hb.temp, hb.apart, hb.bufPt⟩, rfl, by
      dsimp only
      omega⟩

/-- `read` fills `readTmp`. -/
theorem Blocks.fill (hb : s.Blocks v l []) (hsound : s.heap.Sound)
    (hchunk : chunk.length ≤ v.tmpSize.toNat) :
    (s.filled v chunk).heap.Sound ∧ (s.filled v chunk).Blocks v l chunk := by
  obtain ⟨hsound', htemp, hkept⟩ := HeapSys.withBytes_spec hsound hb.temp hchunk
    (m := s.heap.heap.bytes.write v.readTmp.toNat chunk)
    (fun x hx => Bytes.write_of_outside (by omega)) Bytes.reads_write
  exact ⟨hsound', hkept _ _ _ hb.apart hb.buffer, htemp, hb.apart, hb.bufPt⟩

/-- `memcpy` puts the bytes behind those that are in the buffer. -/
theorem Blocks.copy (hb : s.Blocks v l d) (hsound : s.heap.Sound) (hd : d.length = retSize.toNat)
    (hroom : l.length + d.length ≤ s.tftpBufSize.toNat) :
    (s.copy v retSize).heap.Sound ∧
      (s.copy v retSize).Blocks { v with bufPt := v.bufPt + retSize } (l ++ d) [] := by
  have hbufPt := hb.bufPt
  have hbound := hb.buffer.bound hsound
  have hlen : (l ++ d).length = l.length + d.length := List.length_append
  have hreads : (Bytes.copy s.heap.heap.bytes v.bufPt.toNat v.readTmp.toNat retSize.toNat).Reads
      s.recvBuf.toNat (l ++ d) := by
    rw [Bytes.reads_append]
    constructor
    · exact hb.buffer.reads.congr fun i hi => Bytes.copy_of_outside (by omega)
    · rw [← hbufPt]
      exact hb.temp.reads.congr fun i hi => Bytes.copy_of_inside (by omega)
  obtain ⟨hsound', hbuffer, hkept⟩ := HeapSys.withBytes_spec hsound hb.buffer (by omega)
    (fun x hx => Bytes.copy_of_outside (by omega)) hreads
  have htemp := hkept _ _ _ hb.apart.symm hb.temp
  refine ⟨hsound', hbuffer, htemp.nil, hb.apart, ?_⟩
  dsimp only [TftpSys.copy]
  rw [BitVec.toNat_add, Nat.mod_eq_of_lt (by omega)]
  omega

/-! ## The events -/

/-- The two ends of a download, and the rounds. -/
theorem received_cases (hs : received v retSize s = some s') :
    (retSize = -1 ∧ s.release v.readTmp = some s') ∨
      (retSize ≠ -1 ∧ retSize.toInt < 1 ∧
        release v.readTmp { s with
          flashed := s.flashed ++ [s.heap.heap.bytes.slice s.recvBuf.toNat s.recvLen.toNat] } =
            some s') ∨
      (retSize ≠ -1 ∧ 0 < retSize.toInt ∧ s.grow v retSize = some s') := by
  simp only [received] at hs
  split at hs
  · next herror => exact Or.inl ⟨herror, hs⟩
  · next herror =>
    split at hs
    · next hdone => exact Or.inr (Or.inl ⟨herror, hdone, hs⟩)
    · next hmore => exact Or.inr (Or.inr ⟨herror, by omega, hs⟩)

theorem step_read (hs : s.step (.read retSize chunk) = some s') :
    ∃ v, s.thread = .reads v ∧ s.Returns retSize chunk ∧
      received v retSize (s.filled v chunk) = some s' := by
  simp only [TftpSys.step] at hs
  split at hs
  · next v hthread =>
    split at hs
    · next hreturns => exact ⟨v, hthread, hreturns, hs⟩
    · cases hs
  · cases hs

theorem tmpHolds_iff {n : ℕ} (hlocals : s.thread.locals = some v) :
    s.TmpHolds n ↔ n ≤ v.tmpSize.toNat := by
  unfold TmpHolds
  rw [hlocals]
  exact ⟨fun h => h v rfl, fun h _ hv => Option.some.inj hv ▸ h⟩

/-- When `read` has returned, its bytes are in `readTmp`. -/
theorem Invariant.filled (h : s.Invariant i) (htmp : s.TmpHolds chunk.length)
    (hs : s.step (.read retSize chunk) = some s') :
    ∃ v, s.thread = .reads v ∧ s.Returns retSize chunk ∧ (s.filled v chunk).heap.Sound ∧
      (s.filled v chunk).Blocks v i.received chunk ∧ s.recvLen.toNat = i.received.length ∧
      received v retSize (s.filled v chunk) = some s' := by
  obtain ⟨v, hthread, hreturns, hs⟩ := step_read hs
  obtain ⟨hb, hlen⟩ := h.reads v (Or.inr hthread)
  rw [tmpHolds_iff (congrArg TftpThread.locals hthread)] at htmp
  obtain ⟨hsound, hb⟩ := hb.fill h.sound htmp
  exact ⟨v, hthread, hreturns, hsound, hb, hlen, hs⟩

/-- A read that returns bytes. -/
theorem Invariant.read_grows (h : s.Invariant i) (htmp : s.TmpHolds chunk.length)
    (hs : s.step (.read retSize chunk) = some s') (hpos : 0 < retSize.toInt) :
    chunk.length = retSize.toNat ∧ s.recvLen.toNat = i.received.length ∧
      ∃ v, Grows s s' v retSize i.received chunk := by
  obtain ⟨v, -, hreturns, hsound, hb, hlen, hs⟩ := h.filled htmp hs
  refine ⟨hreturns.2 hpos, hlen, ?_⟩
  rcases received_cases hs with ⟨rfl, -⟩ | ⟨-, hdone, -⟩ | ⟨-, -, hs⟩
  · exact absurd hpos (by decide)
  · omega
  · obtain ⟨v', hg⟩ := hb.grow hsound h.bufSize hlen hs
    exact ⟨v', hg.thread, hg.sound, hg.bufSize, hg.flashed, hg.blocks, hg.recvLen, hg.room⟩

/-- The guard of a read that returns bytes. -/
theorem keeps_read_iff (hpos : 0 < retSize.toInt) : s.Keeps (.read retSize chunk) ↔
    s.TmpHolds chunk.length ∧
      s.recvLen.toNat + retSize.toNat ≤ s.tftpBufSize.toNat + 102400 :=
  and_congr_right fun _ => ⟨fun h => h hpos, fun h _ => h⟩

theorem Invariant.read (h : s.Invariant i) (hkeeps : s.Keeps (.read retSize chunk))
    (hs : s.step (.read retSize chunk) = some s') :
    s'.Invariant (i.after (.read retSize chunk)) := by
  obtain ⟨v, -, -, hsound, hb, hlen, hrec⟩ := h.filled hkeeps.1 hs
  rcases received_cases hrec with ⟨herror, hrec⟩ | ⟨herror, hdone, hrec⟩ | ⟨herror, hpos, -⟩
  · have hafter : i.after (.read retSize chunk) = i := by
      simp only [Firmware.after, if_pos herror]
    rw [hafter]
    exact Invariant.release hrec hsound hb h.bufSize h.flashed
  · have hafter : i.after (.read retSize chunk) =
        { i with images := i.images ++ [i.received] } := by
      simp only [Firmware.after, if_neg herror, if_pos hdone]
    have himage := Bytes.slice_of_reads hb.buffer.reads
    rw [← hlen] at himage
    rw [hafter]
    apply Invariant.release hrec hsound ⟨hb.buffer, hb.temp, hb.apart, hb.bufPt⟩ h.bufSize
    exact congrArg₂ (· ++ [·]) h.flashed himage
  · have hafter : i.after (.read retSize chunk) =
        { i with received := i.received ++ chunk } := by
      simp only [Firmware.after, if_neg herror, if_neg (show ¬retSize.toInt < 1 by omega)]
    obtain ⟨hd, -, v', hg⟩ := h.read_grows hkeeps.1 hs hpos
    have hsize := hg.bufSize
    have hfit : i.received.length + retSize.toNat ≤ s'.tftpBufSize.toNat := by
      rw [hg.room, ← hlen]
      exact ((keeps_read_iff hpos).mp hkeeps).2
    rw [hafter]
    refine ⟨hg.sound, hsize, hg.flashed.trans h.flashed, ?_, ?_⟩
    · rintro v (hv | hv)
      · cases hg.thread.symm.trans hv
      · cases hg.thread.symm.trans hv
    · intro v r hv
      obtain ⟨rfl, rfl⟩ := TftpThread.copies.inj (hg.thread.symm.trans hv)
      refine ⟨i.received, chunk, rfl, hd, hg.blocks, ?_, ?_⟩
      · rw [hg.recvLen, BitVec.toNat_add, hlen, List.length_append, hd,
          Nat.mod_eq_of_lt (by omega)]
      · rw [List.length_append, hd]
        exact hfit

theorem Invariant.memcpy (h : s.Invariant i) (hs : s.step .memcpy = some s') : s'.Invariant i := by
  simp only [TftpSys.step] at hs
  split at hs
  · next v retSize hthread =>
    obtain rfl := Option.some.inj hs
    obtain ⟨l, d, hl, hd, hb, hlen, hroom⟩ := h.copies v retSize hthread
    rw [hl, List.length_append] at hroom
    obtain ⟨hsound, hb⟩ := hb.copy h.sound hd hroom
    refine ⟨hsound, h.bufSize, h.flashed, ?_, nofun⟩
    rintro v' (hv | hv)
    · cases hv
    · obtain rfl := TftpThread.reads.inj hv
      rw [← hl] at hb
      exact ⟨hb, hlen⟩
  · cases hs

theorem Invariant.step {e : TftpEvent} (h : s.Invariant i) (he : s.Keeps e)
    (hs : s.step e = some s') : s'.Invariant (i.after e) := by
  cases e with
  | start fd =>
      simp only [TftpSys.step] at hs
      split at hs
      · next hthread => exact h.start he hthread hs
      · cases hs
  | setTftpEverySize size =>
      obtain rfl := Option.some.inj hs
      exact h.resized
  | memset =>
      simp only [TftpSys.step] at hs
      split at hs
      · next v hthread =>
        obtain rfl := Option.some.inj hs
        exact h.clear he hthread
      · cases hs
  | read retSize chunk => exact h.read he hs
  | memcpy => exact h.memcpy hs
  | other e => exact h.other hs

/-- `memcpy` stays inside if and only if the bytes fit. -/
theorem Blocks.memcpyInside_iff (hb : s.Blocks v l d) (hthread : s.thread = .copies v retSize)
    (hd : d.length = retSize.toNat) :
    s.MemcpyInside ↔ l.length + retSize.toNat ≤ s.tftpBufSize.toNat := by
  have hbufPt := hb.bufPt
  have htemp := hb.temp.le
  constructor
  · intro h
    obtain ⟨-, -, hend, -, -⟩ := h v retSize hthread
    omega
  · intro hle v' retSize' hthread'
    obtain ⟨rfl, rfl⟩ := TftpThread.copies.inj (hthread.symm.trans hthread')
    exact ⟨hb.buffer.live, by omega, by omega, hb.temp.live, by omega⟩

theorem Invariant.memcpyInside (h : s.Invariant i) : s.MemcpyInside := by
  intro v retSize hthread
  obtain ⟨l, d, hl, hd, hb, -, hroom⟩ := h.copies v retSize hthread
  rw [hl, List.length_append, hd] at hroom
  exact (hb.memcpyInside_iff hthread hd).mpr hroom v retSize hthread

theorem grow_thread (hs : s.grow v retSize = some s') :
    ∃ v', s'.thread = .copies v' retSize ∧ v'.tmpSize = v.tmpSize ∧
      s'.tftpEveryReadSize = s.tftpEveryReadSize := by
  simp only [TftpSys.grow] at hs
  split at hs
  · obtain ⟨⟨newMem, g⟩, -, hs⟩ := Option.bind_eq_some_iff.mp hs
    obtain rfl := Option.some.inj hs
    exact ⟨_, rfl, rfl, rfl⟩
  · obtain rfl := Option.some.inj hs
    exact ⟨_, rfl, rfl, rfl⟩

/-- What `memcpy` finds inside of `readTmp` has been put there by `read`. -/
theorem tmpHolds_of_inside (hs : s.step (.read retSize chunk) = some s')
    (hpos : 0 < retSize.toInt) (h : s'.MemcpyInside) : s.TmpHolds chunk.length := by
  obtain ⟨v, hthread, hreturns, hs⟩ := step_read hs
  rw [tmpHolds_iff (congrArg TftpThread.locals hthread), hreturns.2 hpos]
  rcases received_cases hs with ⟨rfl, -⟩ | ⟨-, hdone, -⟩ | ⟨-, -, hs⟩
  · exact absurd hpos (by decide)
  · omega
  · obtain ⟨v', hthread', hsame, -⟩ := grow_thread hs
    obtain ⟨-, -, -, -, hle⟩ := h v' retSize hthread'
    rwa [hsame] at hle

theorem Invariant.read_inside_iff (h : s.Invariant i)
    (hs : s.step (.read retSize chunk) = some s') (hpos : 0 < retSize.toInt) :
    s'.MemcpyInside ↔ s.Keeps (.read retSize chunk) := by
  rw [keeps_read_iff hpos]
  constructor
  · intro hinside
    have htmp := tmpHolds_of_inside hs hpos hinside
    obtain ⟨hd, hlen, v, hg⟩ := h.read_grows htmp hs hpos
    rw [hg.blocks.memcpyInside_iff hg.thread hd, hg.room, ← hlen] at hinside
    exact ⟨htmp, hinside⟩
  · rintro ⟨htmp, hroom⟩
    obtain ⟨hd, hlen, v, hg⟩ := h.read_grows htmp hs hpos
    rwa [hg.blocks.memcpyInside_iff hg.thread hd, hg.room, ← hlen]

/-! ## Short reads -/

theorem Small.tmpHolds (h : s.Small) {n : ℕ} (hn : n ≤ s.tftpEveryReadSize.toNat) :
    s.TmpHolds n := by
  intro v hv
  rw [h.same v hv]
  exact hn

/-- A read of at most 100 KB needs one growth at the most. -/
theorem Invariant.keeps_of_small {e : TftpEvent} (h : s.Invariant i) (hsmall : s.Small)
    (hs : s.step e = some s') : s.Keeps e := by
  have hle := hsmall.le
  cases e with
  | start fd =>
      unfold Keeps
      omega
  | setTftpEverySize size => trivial
  | memset => exact hsmall.tmpHolds le_rfl
  | read retSize chunk =>
      obtain ⟨v, hthread, hreturns, -⟩ := step_read hs
      refine ⟨hsmall.tmpHolds hreturns.1, fun hpos => ?_⟩
      obtain ⟨hb, hlen⟩ := h.reads v (Or.inr hthread)
      have hbuf := hb.buffer.le
      have hchunk := hreturns.2 hpos
      have hread := hreturns.1
      omega
  | memcpy => trivial
  | other e => trivial

theorem small_of_grow (h : s.Small) (hv : v.tmpSize = s.tftpEveryReadSize)
    (hs : s.grow v retSize = some s') : s'.Small := by
  obtain ⟨v', hthread, hsame, hevery⟩ := grow_thread hs
  refine ⟨hevery ▸ h.le, ?_⟩
  intro x hx
  rw [hthread] at hx
  obtain rfl := Option.some.inj hx
  rw [hsame, hv, hevery]

theorem small_of_release {p : BitVec 32} (hs : s.release p = some s')
    (hle : s.tftpEveryReadSize.toNat ≤ 100 * 1024) : s'.Small := by
  unfold TftpSys.release at hs
  obtain ⟨h₁, -, hs⟩ := Option.bind_eq_some_iff.mp hs
  obtain ⟨h₂, -, hs⟩ := Option.bind_eq_some_iff.mp hs
  obtain rfl := Option.some.inj hs
  exact ⟨hle, nofun⟩

theorem Small.step {e : TftpEvent} (h : s.Small) (he : s.Sets e) (hs : s.step e = some s') :
    s'.Small := by
  cases e with
  | start fd =>
      simp only [TftpSys.step] at hs
      split at hs
      · next hthread =>
        simp only [TftpSys.start] at hs
        split at hs
        · obtain ⟨⟨bufPt, h₁⟩, -, hs⟩ := Option.bind_eq_some_iff.mp hs
          obtain ⟨⟨readTmp, h₂⟩, -, hs⟩ := Option.bind_eq_some_iff.mp hs
          obtain rfl := Option.some.inj hs
          refine ⟨h.le, ?_⟩
          intro v hv
          obtain rfl := Option.some.inj hv
          rfl
        · obtain rfl := Option.some.inj hs
          exact ⟨h.le, h.same⟩
      · cases hs
  | setTftpEverySize size =>
      obtain rfl := Option.some.inj hs
      refine ⟨he.1, ?_⟩
      intro v hv
      dsimp only at hv
      rw [he.2] at hv
      cases hv
  | memset =>
      simp only [TftpSys.step] at hs
      split at hs
      · next v hthread =>
        obtain rfl := Option.some.inj hs
        have hsame := h.same
        rw [hthread] at hsame
        exact ⟨h.le, hsame⟩
      · cases hs
  | read retSize chunk =>
      obtain ⟨v, hthread, -, hs⟩ := step_read hs
      have hfilled : (s.filled v chunk).Small := ⟨h.le, h.same⟩
      have hsame : v.tmpSize = s.tftpEveryReadSize := h.same v (by rw [hthread]; exact rfl)
      rcases received_cases hs with ⟨-, hs⟩ | ⟨-, -, hs⟩ | ⟨-, -, hs⟩
      · exact small_of_release hs h.le
      · exact small_of_release hs h.le
      · exact small_of_grow hfilled hsame hs
  | memcpy =>
      simp only [TftpSys.step] at hs
      split at hs
      · next v retSize hthread =>
        obtain rfl := Option.some.inj hs
        refine ⟨h.le, ?_⟩
        intro v' hv
        obtain rfl := Option.some.inj hv
        exact h.same v (by rw [hthread]; exact rfl)
      · cases hs
  | other e =>
      simp only [TftpSys.step] at hs
      split at hs
      · obtain ⟨g, -, rfl⟩ := Option.map_eq_some_iff.mp hs
        exact ⟨h.le, h.same⟩
      · cases hs

end Steps

/-! ## The downloads -/

theorem invariant_of_run {s₀ s : TftpSys} {es : List TftpEvent} (hboot : s₀.Boot)
    (hrun : Runs.runChecked step (fun s e => decide (s.Keeps e)) s₀ es = some s) :
    s.Invariant (firmware es) := by
  refine Runs.runChecked_simulates (P := Invariant) ?_ (Invariant.boot hboot) hrun
  intro s i e s' hi he hs
  exact hi.step (of_decide_eq_true he) hs

/-- If the size is never set above 100 KB, nor during a download, as with the 512 bytes that the
variable has at first, what is burnt is what was read. -/
theorem exact_of_sets {s₀ s : TftpSys} {es : List TftpEvent} (hboot : s₀.Boot)
    (hrun : Runs.runChecked step (fun s e => decide (s.Sets e)) s₀ es = some s) :
    s.MemcpyInside ∧ s.flashed = (firmware es).images := by
  have h : s.Invariant (firmware es) ∧ s.Small := by
    refine Runs.runChecked_simulates (P := fun s i => s.Invariant i ∧ s.Small) ?_
      ⟨Invariant.boot hboot, ?_, ?_⟩ hrun
    · rintro s i e s' ⟨hi, hsmall⟩ he hs
      exact ⟨hi.step (hi.keeps_of_small hsmall hs) hs, hsmall.step (of_decide_eq_true he) hs⟩
    · rw [hboot.2.1]
      decide
    · intro v hv
      rw [hboot.2.2.2.1] at hv
      cases hv
  exact ⟨h.1.memcpyInside, h.1.flashed⟩

end TftpSys

/-- In a run in which for every read `readTmp` has room and one growth is enough, `memcpy` stays
inside the two buffers, and the images that are burnt are what the reads have returned.  What the
next read returns is copied inside of them if and only if that is so for it. -/
theorem tftpOpenEntry_exact {s₀ s : TftpSys} {es : List TftpEvent} (hboot : s₀.Boot)
    (hrun : Runs.runChecked TftpSys.step (fun s e => decide (s.Keeps e)) s₀ es = some s) :
    s.MemcpyInside ∧ s.flashed = (firmware es).images ∧
      ∀ retSize chunk s', s.step (.read retSize chunk) = some s' → 0 < retSize.toInt →
        (s'.MemcpyInside ↔ s.Keeps (.read retSize chunk)) := by
  have h := TftpSys.invariant_of_run hboot hrun
  exact ⟨h.memcpyInside, h.flashed, fun _ _ _ hs hpos => h.read_inside_iff hs hpos⟩

/-! ## Two downloads -/

/-- A heap of 1 MB, and no download so far. -/
def bigSys : Option TftpSys :=
  (rtSystemHeapInit (fun _ => 0) 0x1000 0x101000).map fun σ =>
    ⟨⟨σ, []⟩, 512, 100 * 1024, 0, 0, .none, []⟩

theorem boot_bigSys {s : TftpSys} (h : bigSys = some s) : s.Boot := by
  obtain ⟨σ, hσ, rfl⟩ := Option.map_eq_some_iff.mp h
  exact ⟨⟨rfl, _, _, _, hσ⟩, rfl, rfl, rfl, rfl⟩

/-- The first download fails, and the second one, during which less is asked for, is burnt. -/
def twoDownloads : List TftpEvent :=
  [.start 3, .memset, .read 2 [6, 7], .memcpy, .read (-1) [], .start 3, .memset,
    .read 3 [1, 2, 3], .memcpy, .setTftpEverySize 2, .read 2 [4, 5], .memcpy, .read 0 []]

theorem tftpOpenEntry_exact_two :
    ∃ s₀ s, bigSys = some s₀ ∧
      Runs.runChecked TftpSys.step (fun s e => decide (s.Keeps e)) s₀ twoDownloads = some s ∧
      s.MemcpyInside ∧ s.flashed = [[1, 2, 3, 4, 5]] := by
  obtain ⟨s, hs, -⟩ := Runs.exists_of_any (show (bigSys.bind fun s₀ =>
    Runs.runChecked TftpSys.step (fun s e => decide (s.Keeps e)) s₀ twoDownloads).any
      (fun _ => true) = true by decide +kernel)
  obtain ⟨s₀, hs₀, hrun⟩ := Option.bind_eq_some_iff.mp hs
  obtain ⟨hinside, hflashed, -⟩ := tftpOpenEntry_exact (boot_bigSys hs₀) hrun
  exact ⟨s₀, s, hs₀, hrun, hinside, hflashed⟩

/-! ## A read that is too long -/

/-- A read that returns bytes of one value. -/
theorem TftpSys.step_read_replicate {s : TftpSys} {v : TftpLocals} {retSize : BitVec 32}
    {c : BitVec 8} (hthread : s.thread = .reads v) (hpos : 0 < retSize.toInt)
    (hle : retSize.toNat ≤ s.tftpEveryReadSize.toNat) :
    s.step (.read retSize (List.replicate retSize.toNat c)) =
      grow v retSize { s with
        heap := s.heap.withBytes (s.heap.heap.bytes.fill v.readTmp.toNat c retSize.toNat) } := by
  have hreturns : s.Returns retSize (List.replicate retSize.toNat c) := by
    refine ⟨?_, fun _ => ?_⟩
    · rw [List.length_replicate]
      exact hle
    · exact List.length_replicate
  have herror : retSize ≠ -1 := by
    rintro rfl
    exact absurd hpos (by decide)
  simp only [step, hthread, if_pos hreturns, received, if_neg herror,
    if_neg (show ¬retSize.toInt < 1 by omega), filled, Bytes.write_replicate]

/-- The size is set before the first download. -/
def longReads : List TftpEvent := [.setTftpEverySize 204801, .start 3, .memset]

/-- The first read of 204801 bytes leaves a buffer of 204800 bytes. -/
theorem tftpOpenEntry_overruns :
    ∃ s₀ s s', s₀.Boot ∧
      Runs.runChecked TftpSys.step (fun s e => decide (s.Keeps e)) s₀ longReads = some s ∧
      s.step (.read 204801 (List.replicate (204801 : BitVec 32).toNat 0)) = some s' ∧
      ¬s'.MemcpyInside := by
  obtain ⟨s, hs, hcheck⟩ := Runs.exists_of_any (show (bigSys.bind fun s₀ =>
    Runs.runChecked TftpSys.step (fun s e => decide (s.Keeps e)) s₀ longReads).any
      (fun s => s.thread.locals.any fun v => s.thread = .reads v ∧ s.recvLen = 0 ∧
        s.tftpBufSize = 100 * 1024 ∧ s.tftpEveryReadSize = 204801 ∧
        (TftpSys.grow v 204801 { s with
          heap := s.heap.withBytes (s.heap.heap.bytes.fill v.readTmp.toNat 0 204801) }).isSome) =
            true by
    decide +kernel)
  obtain ⟨s₀, hs₀, hrun⟩ := Option.bind_eq_some_iff.mp hs
  obtain ⟨v, -, hv⟩ := Runs.exists_of_any hcheck
  obtain ⟨hthread, hlen, hsize, hevery, hgrow⟩ := of_decide_eq_true hv
  obtain ⟨s', hs'⟩ := Option.isSome_iff_exists.mp hgrow
  have hstep : s.step (.read 204801 (List.replicate (204801 : BitVec 32).toNat 0)) = some s' := by
    rw [TftpSys.step_read_replicate hthread (by decide) (by rw [hevery])]
    exact hs'
  refine ⟨s₀, s, s', boot_bigSys hs₀, hrun, hstep, ?_⟩
  rw [(TftpSys.invariant_of_run (boot_bigSys hs₀) hrun).read_inside_iff hstep (by decide)]
  intro hkeeps
  have hle := hkeeps.2 (by decide)
  rw [hlen, hsize] at hle
  exact absurd hle (by decide)

end LuojiOs
