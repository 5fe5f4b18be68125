import LuojiOs.Tftp.Client

/-!
# Rounds of an exchange

What `tftprrq` and `tftpwrq` do with one packet, and the rule for their loop: what holds
before the first round and is kept by every round that goes on leads to what holds when the
loop returns.
-/

namespace LuojiOs

open Tftp Bytes

namespace Tftp

/-! ## Packets -/

def dataPacket (block : BitVec 16) (data : Datagram) : Datagram :=
  htons DATA ++ htons block ++ data

def ackPacket (block : BitVec 16) : Datagram := htons ACK ++ htons block

section Packets

variable {m : Bytes} {a : ℕ} {v block opcode : BitVec 16} {data l : Datagram}

@[simp] theorem length_htons : (htons v).length = 2 := rfl

theorem bytes_of_word (v : BitVec 16) :
    (v.extractLsb' 8 8 ++ v.extractLsb' 0 8 : BitVec (8 + 8)) = v := by
  apply BitVec.eq_of_toNat_eq
  rw [BitVec.toNat_append, BitVec.extractLsb'_toNat, BitVec.extractLsb'_toNat,
    Nat.shiftRight_eq_div_pow, Nat.shiftRight_zero, ← Nat.shiftLeft_add_eq_or_of_lt]
  · rw [Nat.shiftLeft_eq]
    omega
  · omega

theorem ntohs_of_reads (h : m.Reads a (htons v)) : ntohs m a = v := by
  obtain ⟨hhigh, hlow, -⟩ := h
  unfold ntohs
  rw [hhigh, hlow]
  exact bytes_of_word v

/-- The header of a packet that was written to the beginning of a buffer. -/
theorem ntohs_write :
    ntohs (m.write 0 (htons opcode ++ htons block ++ l)) 0 = opcode ∧
      ntohs (m.write 0 (htons opcode ++ htons block ++ l)) 2 = block := by
  have hreads : (m.write 0 (htons opcode ++ htons block ++ l)).Reads 0
      (htons opcode ++ htons block ++ l) := reads_write
  rw [reads_append, reads_append] at hreads
  exact ⟨ntohs_of_reads hreads.1.1, ntohs_of_reads hreads.1.2⟩

theorem hostOrder_of_ge {x : ℕ} (hx : 4 ≤ x) : hostOrder m x = m x := by
  unfold hostOrder
  rw [set_of_ne (by omega), set_of_ne (by omega), set_of_ne (by omega), set_of_ne (by omega)]

@[simp] theorem length_dataPacket : (dataPacket block data).length = data.length + 4 := by
  unfold dataPacket
  rw [List.length_append, List.length_append, length_htons, length_htons, Nat.add_comm]

theorem take_dataPacket (h : data.length ≤ SEGSIZE) :
    (dataPacket block data).take PKTSIZE = dataPacket block data := by
  apply List.take_of_length_le
  rw [length_dataPacket]
  exact Nat.add_le_add_right h 4

theorem take_ackPacket : (ackPacket block).take PKTSIZE = ackPacket block := by
  apply List.take_of_length_le
  unfold ackPacket PKTSIZE
  rw [List.length_append, length_htons, length_htons]
  omega

end Packets

end Tftp

/-- Only the buffers, the port and the mark at the end of the file may differ. -/
structure SameWindow (t t' : TftpFile) : Prop where
  block : t'.block = t.block
  flags : t'.flags = t.flags
  start : t'.start = t.start
  stop : t'.stop = t.stop
  foffs : t'.foffs = t.foffs

namespace SameWindow

variable {t t' t'' : TftpFile}

theorem refl (t : TftpFile) : SameWindow t t := ⟨rfl, rfl, rfl, rfl, rfl⟩

theorem buffers {port : BitVec 16} {eof : Bool} {buf ackbuf : Bytes} :
    SameWindow t ⟨port, t.block, t.flags, eof, t.start, t.stop, t.foffs, buf, ackbuf⟩ :=
  ⟨rfl, rfl, rfl, rfl, rfl⟩

theorem trans (h : SameWindow t t') (h' : SameWindow t' t'') : SameWindow t t'' :=
  ⟨h'.block.trans h.block, h'.flags.trans h.flags, h'.start.trans h.start,
    h'.stop.trans h.stop, h'.foffs.trans h.foffs⟩

end SameWindow

/-! ## One packet -/

section Packet

variable {port : BitVec 16} {bytes : Datagram} {t t₁ : TftpFile} {learn : Bool}

theorem checkPort_eq_some (h : t.checkPort learn port = some t₁) :
    t₁ = { t with port := t₁.port } := by
  unfold TftpFile.checkPort at h
  split at h
  · cases h
    rfl
  · split at h
    · cases h
    · cases h
      rfl

/-- The buffer after a packet has arrived in it. -/
def received (bytes : Datagram) (t : TftpFile) : Bytes := t.buf.write 0 (bytes.take PKTSIZE)

/-- The packet is the block that `tftprrq` waits for. -/
structure RrqAccepts (bytes : Datagram) (t : TftpFile) (h : Handled) : Prop where
  opcode : ntohs (received bytes t) 0 = DATA
  block : ntohs (received bytes t) 2 = t.block
  ret : h.ret = some (((bytes.take PKTSIZE).length : ℤ) - 4)
  buf : h.file.buf = hostOrder (received bytes t)
  eof : h.file.eof = (t.eof || decide (((bytes.take PKTSIZE).length : ℤ) - 4 < SEGSIZE))

/-- `tftprrq` goes on, gives up, or has its block. -/
theorem rrqPacket_spec (port : BitVec 16) (bytes : Datagram) (t : TftpFile) :
    SameWindow t (rrqPacket port bytes t).file ∧
      (((rrqPacket port bytes t).ret = none ∨ (rrqPacket port bytes t).ret = some (-1)) ∧
          (rrqPacket port bytes t).file.eof = t.eof ∨
        RrqAccepts bytes t (rrqPacket port bytes t)) := by
  unfold rrqPacket
  dsimp only
  split
  · exact ⟨SameWindow.buffers, Or.inl ⟨Or.inl rfl, rfl⟩⟩
  · next t₁ hport =>
    rw [checkPort_eq_some hport]
    split
    · exact ⟨SameWindow.buffers, Or.inl ⟨Or.inr rfl, rfl⟩⟩
    · split
      · next hdata =>
        split
        · next hblock =>
          refine ⟨?_, Or.inr ⟨hdata, hblock, rfl, ?_, ?_⟩⟩
          · split
            · exact SameWindow.buffers
            · exact SameWindow.buffers
          · split
            · rfl
            · rfl
          · split
            · next hshort =>
              rw [decide_eq_true hshort]
              exact (Bool.or_true _).symm
            · next hfull =>
              rw [decide_eq_false hfull]
              exact (Bool.or_false _).symm
        · split
          · exact ⟨SameWindow.buffers, Or.inl ⟨Or.inr rfl, rfl⟩⟩
          · exact ⟨SameWindow.buffers, Or.inl ⟨Or.inl rfl, rfl⟩⟩
      · exact ⟨SameWindow.buffers, Or.inl ⟨Or.inl rfl, rfl⟩⟩

/-- The acknowledgement is the one that `tftpwrq` waits for. -/
structure WrqAccepts (size : ℤ) (bytes : Datagram) (t : TftpFile) (h : Handled) : Prop where
  opcode : ntohs (t.ackbuf.write 0 (bytes.take PKTSIZE)) 0 = ACK
  block : ntohs (t.ackbuf.write 0 (bytes.take PKTSIZE)) 2 = t.block
  ret : h.ret = some size

theorem wrqPacket_spec (size : ℤ) (port : BitVec 16) (bytes : Datagram) (t : TftpFile) :
    SameWindow t (wrqPacket size port bytes t).file ∧
      (wrqPacket size port bytes t).file.buf = t.buf ∧
      (((wrqPacket size port bytes t).ret = none ∨ (wrqPacket size port bytes t).ret = some (-1)) ∨
        WrqAccepts size bytes t (wrqPacket size port bytes t)) := by
  unfold wrqPacket
  dsimp only
  split
  · exact ⟨SameWindow.buffers, rfl, Or.inl (Or.inl rfl)⟩
  · next t₁ hport =>
    rw [checkPort_eq_some hport]
    split
    · exact ⟨SameWindow.buffers, rfl, Or.inl (Or.inr rfl)⟩
    · split
      · next hack =>
        split
        · next hblock => exact ⟨SameWindow.buffers, rfl, Or.inr ⟨hack, hblock, rfl⟩⟩
        · split
          · exact ⟨SameWindow.buffers, rfl, Or.inl (Or.inr rfl)⟩
          · exact ⟨SameWindow.buffers, rfl, Or.inl (Or.inl rfl)⟩
      · exact ⟨SameWindow.buffers, rfl, Or.inl (Or.inl rfl)⟩

end Packet

/-! ## The loop -/

section Loop

variable {W E : Type} {N : Network W E} {req : Datagram} {sent : TftpFile → Bool}
  {timeout : BitVec 32 → Option ℤ} {packet : BitVec 16 → Datagram → TftpFile → Handled}
  {es : List E} {rexmt : BitVec 32} {t : TftpFile} {w : W} {ret : ℤ} {s : Session W E}

/-- What one round needs so that `I` holds before every round and `Q` at the end. -/
structure RoundRule (N : Network W E) (req : Datagram) (sent : TftpFile → Bool)
    (timeout : BitVec 32 → Option ℤ) (packet : BitVec 16 → Datagram → TftpFile → Handled)
    (I : TftpFile → W → Prop) (Q : ℤ → TftpFile → W → Prop) : Prop where
  unsent : ∀ e t w, I t w → N.sendto e t.port req w = none → Q (-1) t w
  ended : ∀ e t w w₁, I t w → N.sendto e t.port req w = some w₁ → sent t = true → Q 0 t w₁
  failed : ∀ e t w w₁ w₂, I t w → N.sendto e t.port req w = some w₁ → sent t = false →
    N.wait e w₁ = (w₂, .selectFails) ∨ N.wait e w₁ = (w₂, .recvFails) → Q (-1) t w₂
  late : ∀ e t w w₁ w₂, I t w → N.sendto e t.port req w = some w₁ → sent t = false →
    N.wait e w₁ = (w₂, .timesOut) → I t w₂ ∧ ∀ r n, timeout r = some n → Q n t w₂
  answered : ∀ e t w w₁ w₂ port bytes, I t w → N.sendto e t.port req w = some w₁ →
    sent t = false → N.wait e w₁ = (w₂, .packet port bytes) →
    (∀ n, (packet port bytes t).ret = some n → Q n (packet port bytes t).file
      (if (packet port bytes t).flush then N.synchnet w₂ else w₂)) ∧
    ((packet port bytes t).ret = none → I (packet port bytes t).file
      (if (packet port bytes t).flush then N.synchnet w₂ else w₂))

theorem exchange_rule {I : TftpFile → W → Prop} {Q : ℤ → TftpFile → W → Prop}
    (hrule : RoundRule N req sent timeout packet I Q) (hI : I t w)
    (h : exchange N req sent timeout packet es rexmt t w = some (ret, s)) :
    Q ret s.file s.net := by
  induction es generalizing rexmt t w with
  | nil => cases h
  | cons e es ih =>
      simp only [exchange] at h
      split at h
      · next hsend =>
        cases h
        exact hrule.unsent e t w hI hsend
      · next w₁ hsend =>
        split at h
        · next hend =>
          cases h
          exact hrule.ended e t w w₁ hI hsend hend
        · next hgo =>
          have hgo : sent t = false := by simpa using hgo
          split at h
          · next w₂ hwait =>
            cases h
            exact hrule.failed e t w w₁ w₂ hI hsend hgo (Or.inl hwait)
          · next w₂ hwait =>
            obtain ⟨hagain, hlast⟩ := hrule.late e t w w₁ w₂ hI hsend hgo hwait
            split at h
            · next n hn =>
              cases h
              exact hlast _ _ hn
            · exact ih hagain h
          · next w₂ hwait =>
            cases h
            exact hrule.failed e t w w₁ w₂ hI hsend hgo (Or.inr hwait)
          · next w₂ port bytes hwait =>
            obtain ⟨hlast, hagain⟩ := hrule.answered e t w w₁ w₂ port bytes hI hsend hgo hwait
            split at h
            · next n hn =>
              cases h
              exact hlast _ hn
            · next hn => exact ih (hagain hn) h

theorem rrqTimeout_neg {r : BitVec 32} {n : ℤ} (h : rrqTimeout r = some n) : n < 0 := by
  unfold rrqTimeout at h
  split at h
  · cases h
    omega
  · split at h
    · cases h
      omega
    · cases h

theorem wrqTimeout_eq_none (r : BitVec 32) : wrqTimeout r = none := by
  unfold wrqTimeout MAXREXMT
  apply if_neg
  have := r.toInt_lt
  omega

end Loop

end LuojiOs
