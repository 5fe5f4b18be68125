import LuojiOs.Tftp.Download

/-!
# Repeated packets after the wrap of the block number

`block` is an `unsigned short`, and `block - 1` is an `int`.  A packet with the number of the
block before is therefore taken for a repeated one as long as `block` is not 0: at 0 the
number of the block before is 65535, and `block - 1` is -1.
-/

namespace LuojiOs

open Tftp Bytes

/-! ## The number of a packet -/

section Number

variable {port b opcode : BitVec 16} {data : Datagram} {t : TftpFile} {size : ℤ}

theorem checkPort_eq (learn : Prop) [Decidable learn] : t.checkPort learn port =
    if learn ∨ port = t.port then some { t with port := port } else none := by
  unfold TftpFile.checkPort
  by_cases hlearn : learn
  · rw [if_pos (decide_eq_true hlearn), if_pos (Or.inl hlearn)]
  · rw [if_neg (by simpa using hlearn)]
    by_cases hport : port = t.port
    · rw [if_neg (not_not.mpr hport), if_pos (Or.inr hport), hport]
    · rw [if_pos hport, if_neg (not_or.mpr ⟨hlearn, hport⟩)]

/-- What `tftprrq` returns for a packet of the server, by the number of the packet. -/
theorem rrqPacket_ret : (rrqPacket port (htons DATA ++ htons b ++ data) t).ret =
    if t.block.toNat ≤ 1 ∨ port = t.port then
      if b = t.block then some (((data.take SEGSIZE).length + 4 : ℕ) - 4 : ℤ)
      else if (b.toNat : ℤ) ≠ t.block.toNat - 1 then some (-1) else none
    else none := by
  have htake : (htons DATA ++ htons b ++ data).take PKTSIZE =
      htons DATA ++ htons b ++ data.take SEGSIZE := rfl
  have hlen : (htons DATA ++ htons b ++ data.take SEGSIZE).length =
      (data.take SEGSIZE).length + 4 := length_dataPacket
  unfold rrqPacket
  dsimp only
  rw [htake, hlen, checkPort_eq]
  by_cases hport : t.block.toNat ≤ 1 ∨ port = t.port
  · rw [if_pos hport, if_pos hport]
    dsimp only
    rw [ntohs_write.1, ntohs_write.2, if_neg (show DATA ≠ ERROR by decide), if_pos rfl]
    split
    · rfl
    · split
      · rfl
      · rfl
  · rw [if_neg hport, if_neg hport]

theorem rrqPacket_port {bytes : Datagram} (hport : t.block.toNat ≤ 1 ∨ port = t.port) :
    (rrqPacket port bytes t).file.port = port := by
  unfold rrqPacket
  dsimp only
  rw [checkPort_eq, if_pos hport]
  dsimp only
  split
  · rfl
  · split
    · split
      · split
        · rfl
        · rfl
      · split
        · rfl
        · rfl
    · rfl

/-- The same for an acknowledgement in `tftpwrq`. -/
theorem wrqPacket_ret : (wrqPacket size port (htons ACK ++ htons b ++ data) t).ret =
    if t.block = 0 ∨ port = t.port then
      if b = t.block then some size
      else if (b.toNat : ℤ) ≠ t.block.toNat - 1 then some (-1) else none
    else none := by
  have htake : (htons ACK ++ htons b ++ data).take PKTSIZE =
      htons ACK ++ htons b ++ data.take SEGSIZE := rfl
  unfold wrqPacket
  dsimp only
  rw [htake, checkPort_eq]
  by_cases hport : t.block = 0 ∨ port = t.port
  · rw [if_pos hport, if_pos hport]
    dsimp only
    rw [ntohs_write.1, ntohs_write.2, if_neg (show ACK ≠ ERROR by decide), if_pos rfl]
    split
    · rfl
    · split
      · rfl
      · rfl
  · rw [if_neg hport, if_neg hport]

/-- The two tests of the code for a number that is not the current one. -/
theorem previous_number (hblock : t.block ≠ 0) (hb : b = t.block - 1) :
    (b.toNat : ℤ) = t.block.toNat - 1 := by
  have hpos : t.block.toNat ≠ 0 := fun hzero => hblock (BitVec.eq_of_toNat_eq hzero)
  have hlt := t.block.isLt
  rw [hb, BitVec.toNat_sub, show (1 : BitVec 16).toNat = 1 from rfl]
  omega

end Number

/-! ## Rounds with other numbers -/

/-- In a round of the exchange in which a packet arrives that has not the number `block`, the
packet is not accepted; if it has the number of the block before, the next round sends the
request again. -/
def ResendsDuplicates (opcode : BitVec 16) (sent : TftpFile → Bool)
    (timeout : BitVec 32 → Option ℤ) (packet : BitVec 16 → Datagram → TftpFile → Handled)
    (t : TftpFile) : Prop :=
  ∀ (W E : Type) (N : Network W E) (req : Datagram) (e : E) (es : List E) (rexmt : BitVec 32)
    (w w₁ w₂ : W) (port b : BitVec 16) (data : Datagram),
    sent t = false → N.sendto e t.port req w = some w₁ →
    N.wait e w₁ = (w₂, .packet port (htons opcode ++ htons b ++ data)) → b ≠ t.block →
    ∃ t' w', SameWindow t t' ∧
      (exchange N req sent timeout packet (e :: es) rexmt t w =
          exchange N req sent timeout packet es rexmt t' w' ∨
        b ≠ t.block - 1 ∧
          exchange N req sent timeout packet (e :: es) rexmt t w = some (-1, ⟨es, w', t'⟩))

/-- The exchange of `tftprrq`. -/
def RrqResends (t : TftpFile) : Prop :=
  ResendsDuplicates DATA TftpFile.eof rrqTimeout rrqPacket t

/-- The exchange of `tftpwrq`. -/
def WrqResends (t : TftpFile) : Prop :=
  ∀ size, ResendsDuplicates ACK (fun _ => false) wrqTimeout (wrqPacket size) t

section Resends

variable {opcode : BitVec 16} {sent : TftpFile → Bool} {timeout : BitVec 32 → Option ℤ}
  {packet : BitVec 16 → Datagram → TftpFile → Handled} {t : TftpFile}

/-- One round with a packet of another number, from what is done with the packet. -/
theorem resends_of_packet
    (hpacket : ∀ port b data, b ≠ t.block →
      SameWindow t (packet port (htons opcode ++ htons b ++ data) t).file ∧
        ((packet port (htons opcode ++ htons b ++ data) t).ret = none ∨
          b ≠ t.block - 1 ∧ (packet port (htons opcode ++ htons b ++ data) t).ret = some (-1))) :
    ResendsDuplicates opcode sent timeout packet t := by
  intro W E N req e es rexmt w w₁ w₂ port b data hgo hsend hwait hb
  obtain ⟨hsame, hret⟩ := hpacket port b data hb
  refine ⟨_, if (packet port (htons opcode ++ htons b ++ data) t).flush then N.synchnet w₂ else w₂,
    hsame, ?_⟩
  simp only [exchange, hsend, hgo, hwait]
  rcases hret with hret | ⟨hother, hret⟩
  · rw [hret]
    exact Or.inl rfl
  · rw [hret]
    exact Or.inr ⟨hother, rfl⟩

/-- At the number 0 a repeated packet ends the exchange. -/
theorem not_resends_of_packet (hgo : sent t = false) (hblock : t.block = 0)
    (hret : (packet t.port (htons opcode ++ htons (-1) ++ []) t).ret = some (-1)) :
    ¬ResendsDuplicates opcode sent timeout packet t := by
  intro hresends
  let N : Network Unit Unit :=
    ⟨fun _ _ _ w => some w, fun _ w => (w, .packet t.port (htons opcode ++ htons (-1) ++ [])), id⟩
  have hother : (-1 : BitVec 16) ≠ t.block := by
    rw [hblock]
    decide
  obtain ⟨t', w', -, hagain | ⟨hnot, -⟩⟩ := hresends Unit Unit N [] () [] 0 () () () t.port (-1) []
    hgo rfl rfl hother
  · simp only [exchange, N, hgo, hret] at hagain
    cases hagain
  · rw [hblock] at hnot
    exact hnot rfl

end Resends

/-- The exchange of `tftprrq` recognises every repeated packet unless `block` is 0, and the
exchange of `tftpwrq` does so under the same condition.  Past the end of the file `tftprrq`
receives nothing. -/
theorem resends_iff (t : TftpFile) :
    (RrqResends t ↔ t.block ≠ 0 ∨ t.eof = true) ∧ (WrqResends t ↔ t.block ≠ 0) := by
  constructor
  · constructor
    · intro hresends
      by_contra hnot
      obtain ⟨hblock, heof⟩ := not_or.mp hnot
      have hblock : t.block = 0 := not_not.mp hblock
      refine not_resends_of_packet (by simpa using heof) hblock ?_ hresends
      rw [rrqPacket_ret, hblock]
      rfl
    · rintro (hblock | heof)
      · apply resends_of_packet
        intro port b data hb
        refine ⟨(rrqPacket_spec _ _ _).1, ?_⟩
        rw [rrqPacket_ret, if_neg hb]
        split
        · split
          · next hother => exact Or.inr ⟨fun h => hother (previous_number hblock h), rfl⟩
          · exact Or.inl rfl
        · exact Or.inl rfl
      · intro W E N req e es rexmt w w₁ w₂ port b data hgo
        rw [heof] at hgo
        cases hgo
  · constructor
    · intro hresends hblock
      refine not_resends_of_packet rfl hblock ?_ (hresends 0)
      rw [wrqPacket_ret, hblock]
      rfl
    · intro hblock size
      apply resends_of_packet
      intro port b data hb
      refine ⟨(wrqPacket_spec _ _ _ _).1, ?_⟩
      rw [wrqPacket_ret, if_neg hb]
      split
      · split
        · next hother => exact Or.inr ⟨fun h => hother (previous_number hblock h), rfl⟩
        · exact Or.inl rfl
      · exact Or.inl rfl

/-! ## A download that reaches the number 0 -/

/-- The block `k` was received, and nothing of it was read. -/
structure AtBlock (k : ℕ) (t : TftpFile) : Prop where
  mode : t.flags &&& O_ACCMODE = O_RDONLY
  eof : t.eof = false
  port : t.port = 7000
  block : t.block = BitVec.ofNat 16 k
  stop : t.stop = t.start + SEGSIZE
  foffs : t.foffs = t.start

section LongFile

variable {file : Datagram} {k : ℕ} {rest : List ServerEvent} {s : Session Unit ServerEvent}

/-- One round in which a block of the server arrives. -/
theorem tftprrq_round (req : Datagram) (hrounds : s.rounds = .data 7000 k :: rest) (hk : 1 ≤ k)
    (hfile : k ≤ fileBlocks file) (heof : s.file.eof = false) {ret : ℤ}
    (hret : (rrqPacket 7000 (dataPacket (BitVec.ofNat 16 k) (blockData file k)) s.file).ret =
      some ret) :
    tftprrq (server file) req s = some (ret, ⟨rest, s.net,
      (rrqPacket 7000 (dataPacket (BitVec.ofNat 16 k) (blockData file k)) s.file).file⟩) := by
  have hsend : (server file).sendto (.data 7000 k) s.file.port req s.net = some s.net := rfl
  have hwait : (server file).wait (.data 7000 k) s.net =
      (s.net, .packet 7000 (dataPacket (BitVec.ofNat 16 k) (blockData file k))) := by
    simp only [server, hk, hfile, and_self, if_true]
  unfold tftprrq
  rw [hrounds]
  simp only [exchange, hsend, heof, hwait, hret]
  simp [server]

theorem full_block_arrives {t : TftpFile} (hlen : (blockData file k).length = SEGSIZE)
    (hblock : t.block = BitVec.ofNat 16 k) (heof : t.eof = false)
    (hport : t.block.toNat ≤ 1 ∨ (7000 : BitVec 16) = t.port) :
    (rrqPacket 7000 (dataPacket (BitVec.ofNat 16 k) (blockData file k)) t).ret =
        some (SEGSIZE : ℤ) ∧
      SameWindow t (rrqPacket 7000 (dataPacket (BitVec.ofNat 16 k) (blockData file k)) t).file ∧
      (rrqPacket 7000 (dataPacket (BitVec.ofNat 16 k) (blockData file k)) t).file.eof = false ∧
      (rrqPacket 7000 (dataPacket (BitVec.ofNat 16 k) (blockData file k)) t).file.port = 7000 := by
  have hret : (rrqPacket 7000 (dataPacket (BitVec.ofNat 16 k) (blockData file k)) t).ret =
      some (SEGSIZE : ℤ) := by
    unfold dataPacket
    rw [rrqPacket_ret, if_pos hport, if_pos hblock.symm, List.take_of_length_le (by omega), hlen]
    rfl
  obtain ⟨hsame, ⟨hnone | hgave, -⟩ | haccepts⟩ := rrqPacket_spec 7000
    (dataPacket (BitVec.ofNat 16 k) (blockData file k)) t
  · rw [hret] at hnone
    cases hnone
  · rw [hret] at hgave
    cases hgave
  · refine ⟨hret, hsame, ?_, rrqPacket_port hport⟩
    have hfull : ¬(((dataPacket (BitVec.ofNat 16 k) (blockData file k)).take PKTSIZE).length : ℤ) -
        4 < SEGSIZE := by
      rw [take_dataPacket (Nat.le_of_eq hlen), length_dataPacket, hlen]
      decide
    rw [haccepts.eof, heof, decide_eq_false hfull]
    rfl

/-- A read of a whole block, from the exchange for the next one. -/
theorem AtBlock.tftpread {n : ℤ} {s' : Session Unit ServerEvent} (h : AtBlock k s.file)
    (hrrq : tftprrq (server file) (htons ACK ++ htons s.file.block)
      { s with file := TftpFile.tftpnxtblk { s.file with foffs := s.file.stop } } =
        some (n, s')) :
    ∃ out, LuojiOs.tftpread (server file) SEGSIZE s = some (if n < 0 then ⟨-1, out, s'⟩
      else ⟨SEGSIZE, out, { s' with
        file := { s'.file with start := s'.file.stop, stop := s'.file.stop + n } }⟩) := by
  have hgo : SEGSIZE ≠ 0 ∧ s.file.start < s.file.stop := by
    rw [h.stop]
    exact ⟨by decide, Int.lt_add_of_pos_right _ (by decide)⟩
  have hn : s.file.available SEGSIZE = SEGSIZE := by
    have hsize : (s.file.stop - s.file.start).toNat = SEGSIZE := by
      rw [h.stop]
      omega
    unfold TftpFile.available
    rw [h.foffs, if_pos ⟨Int.le_refl _, hgo.2⟩, hsize, Nat.min_self]
  have hfoffs : s.file.foffs + (SEGSIZE : ℤ) = s.file.stop := by rw [h.foffs, h.stop]
  refine ⟨[] ++ (List.range SEGSIZE).map
    fun i => s.file.buf (4 + (s.file.foffs - s.file.start).toNat + i), ?_⟩
  unfold LuojiOs.tftpread
  rw [if_neg (not_not.mpr h.mode)]
  simp only [tftpreadFrom]
  rw [if_pos hgo, hn, hfoffs, if_pos (Int.le_refl _), Nat.sub_self, hrrq]
  dsimp only
  split
  · rfl
  · rw [if_neg (fun hnot => hnot.1 rfl), Int.natCast_zero, Int.sub_zero]

theorem AtBlock.next (h : AtBlock k s.file)
    (hrounds : s.rounds = .data 7000 (k + 1) :: rest)
    (hlen : (blockData file (k + 1)).length = SEGSIZE) (hfile : k + 1 ≤ fileBlocks file) :
    ∃ r, LuojiOs.tftpread (server file) SEGSIZE s = some r ∧ 0 ≤ r.ret ∧
      r.session.rounds = rest ∧ AtBlock (k + 1) r.session.file := by
  let t : TftpFile := TftpFile.tftpnxtblk { s.file with foffs := s.file.stop }
  have hblock : t.block = BitVec.ofNat 16 (k + 1) := by
    rw [BitVec.ofNat_add, ← h.block]
    rfl
  obtain ⟨hret, hsame, heof, hport⟩ := full_block_arrives (t := t) hlen hblock h.eof
    (Or.inr h.port.symm)
  obtain ⟨out, hr⟩ := h.tftpread (tftprrq_round _ (s := { s with file := t }) hrounds
    (Nat.le_add_left 1 k) hfile h.eof hret)
  rw [if_neg (Int.not_lt.mpr (Int.natCast_nonneg SEGSIZE))] at hr
  refine ⟨_, hr, Int.natCast_nonneg SEGSIZE, rfl, ?_⟩
  constructor
  · exact (congrArg (· &&& O_ACCMODE) hsame.flags).trans h.mode
  · exact heof
  · exact hport
  · exact hsame.block.trans hblock
  · rfl
  · exact hsame.foffs.trans hsame.stop.symm

/-- `tftpopen` reads the first block. -/
theorem AtBlock.of_open (rest : List ServerEvent) (hlen : (blockData file 1).length = SEGSIZE) :
    ∃ s, OpenedForReading (server file) s ∧ s.rounds = rest ∧ AtBlock 1 s.file := by
  let t : TftpFile := ⟨servicePort, 1, 0, false, 0, 0, 0, fun _ => 0, fun _ => 0⟩
  obtain ⟨hret, hsame, heof, hport⟩ := full_block_arrives (k := 1) (t := t) hlen rfl rfl
    (Or.inl (by decide))
  have hrrq := tftprrq_round (makerequest RRQ [] octet)
    (s := ⟨.data 7000 1 :: rest, (), t⟩) rfl (Nat.le_refl 1) (Nat.le_add_left 1 _) rfl hret
  generalize (rrqPacket 7000 (dataPacket (BitVec.ofNat 16 1) (blockData file 1)) t).file = u at *
  have hopen : tftpopen (server file) true [] 0 (fun _ => 0) (.data 7000 1 :: rest) () =
      some (0, ⟨rest, (), { u with stop := u.start + SEGSIZE }⟩) := by
    unfold tftpopen
    dsimp only
    rw [if_neg (by decide), if_neg (by decide), if_pos (by decide)]
    exact Option.bind_eq_some_iff.mpr ⟨_, hrrq, rfl⟩
  refine ⟨_, ⟨true, [], 0, fun _ => 0, .data 7000 1 :: rest, (), rfl, hopen⟩, rfl, ?_⟩
  constructor
  · exact hsame.flags ▸ (show (0 : BitVec 16) &&& O_ACCMODE = O_RDONLY by decide)
  · exact heof
  · exact hport
  · exact hsame.block
  · rfl
  · exact hsame.foffs.trans hsame.start.symm

end LongFile

/-- A file of `n` full blocks, which ends with an empty one. -/
def zeroFile (n : ℕ) : Datagram := List.replicate (SEGSIZE * n) 0

theorem length_blockData_zeroFile {n k : ℕ} (hk : 1 ≤ k) (hlast : k ≤ n) :
    (blockData (zeroFile n) k).length = SEGSIZE := by
  have hlen : (zeroFile n).length = SEGSIZE * n := List.length_replicate
  have hroom : SEGSIZE ≤ SEGSIZE * n - SEGSIZE * (k - 1) := by
    unfold SEGSIZE
    omega
  rw [length_blockData, hlen, Nat.min_eq_left hroom]

theorem fileBlocks_zeroFile (n : ℕ) : fileBlocks (zeroFile n) = n + 1 := by
  unfold fileBlocks zeroFile
  rw [List.length_replicate, Nat.mul_div_cancel_left n (by decide)]

theorem reaches_block {n k : ℕ} (hk : 1 ≤ k) (hlast : k ≤ n) (rest : List ServerEvent) :
    ∃ s, Runs.Reach (ReadCall.step (server (zeroFile n))) (fun _ _ => True)
      (OpenedForReading (server (zeroFile n))) s ∧ s.rounds = rest ∧ AtBlock k s.file := by
  induction k, hk using Nat.le_induction generalizing rest with
  | base =>
      obtain ⟨s, hopen, hrounds, hat⟩ :=
        AtBlock.of_open rest (length_blockData_zeroFile (Nat.le_refl 1) hlast)
      exact ⟨s, Runs.Reach.start hopen, hrounds, hat⟩
  | succ k hk ih =>
      obtain ⟨s, hs, hrounds, hat⟩ := ih (by omega) (.data 7000 (k + 1) :: rest)
      have hfile : k + 1 ≤ fileBlocks (zeroFile n) := by
        rw [fileBlocks_zeroFile]
        omega
      obtain ⟨r, hr, hret, hrest, hnext⟩ :=
        hat.next hrounds (length_blockData_zeroFile (Nat.le_add_left 1 k) hlast) hfile
      refine ⟨r.session, hs.step (e := .read SEGSIZE) trivial ?_, hrest, hnext⟩
      exact Option.bind_eq_some_iff.mpr ⟨r, hr, if_neg (Int.not_lt.mpr hret)⟩

/-- After `n` blocks the last one arrives once more. -/
theorem AtBlock.repeated {file : Datagram} {n : ℕ} {s : Session Unit ServerEvent}
    (h : AtBlock n s.file) (hrounds : s.rounds = [.data 7000 n]) (hn : 1 ≤ n)
    (hfile : n ≤ fileBlocks file) (hblock : s.file.block + 1 = 0) :
    ∃ r, LuojiOs.tftpread (server file) SEGSIZE s = some r ∧ r.ret = -1 := by
  let t : TftpFile := TftpFile.tftpnxtblk { s.file with foffs := s.file.stop }
  have hzero : t.block = 0 := hblock
  have hret : (rrqPacket 7000 (dataPacket (BitVec.ofNat 16 n) (blockData file n)) t).ret =
      some (-1) := by
    have hnumber : BitVec.ofNat 16 n = -1 := by
      rw [← h.block]
      exact BitVec.eq_sub_iff_add_eq.mpr hblock
    unfold dataPacket
    rw [rrqPacket_ret, hzero, hnumber, if_pos (Or.inl (by decide)), if_neg (by decide),
      if_pos (by decide)]
  obtain ⟨out, hr⟩ := h.tftpread
    (tftprrq_round _ (s := { s with file := t }) hrounds hn hfile h.eof hret)
  rw [if_pos (by decide)] at hr
  exact ⟨_, hr, rfl⟩

/-- A download of 65535 blocks fails when its last block arrives once more. -/
theorem repeated_block_fails :
    ∃ s r, Runs.Reach (ReadCall.step (server (zeroFile 65535))) (fun _ _ => True)
        (OpenedForReading (server (zeroFile 65535))) s ∧
      s.rounds = [.data 7000 65535] ∧ s.file.block = 65535 ∧ ¬RrqResends s.file.tftpnxtblk ∧
      tftpread (server (zeroFile 65535)) SEGSIZE s = some r ∧ r.ret = -1 := by
  obtain ⟨s, hs, hrounds, hat⟩ :=
    reaches_block (n := 65535) (by decide) (Nat.le_refl 65535) [.data 7000 65535]
  have hwrapped : s.file.block + 1 = 0 := by
    rw [hat.block]
    rfl
  have hfile : 65535 ≤ fileBlocks (zeroFile 65535) := by
    rw [fileBlocks_zeroFile]
    exact Nat.le_succ _
  obtain ⟨r, hr, hret⟩ := hat.repeated hrounds (by decide) hfile hwrapped
  refine ⟨s, r, hs, hrounds, hat.block, ?_, hr, hret⟩
  rw [(resends_iff _).1]
  rintro (hnot | heof)
  · exact hnot hwrapped
  · exact Bool.false_ne_true (hat.eof.symm.trans heof)

end LuojiOs
