import LuojiOs.Tftp.Exchange
import LuojiOs.Support.Runs

/-!
# Downloads

The network may deliver any packet of the server at any time, from any of its ports, and as
often as it likes.  As long as no call fails, the data area of `buf` holds the bytes of the
file between `start` and `stop`, and a read goes on with the next block at `stop`.
-/

namespace LuojiOs

open Tftp Bytes

/-! ## The server -/

/-- The number of blocks; the last one is shorter than the others. -/
def fileBlocks (file : Datagram) : ℕ := file.length / SEGSIZE + 1

/-- The bytes of the block `k`, counted from 1. -/
def blockData (file : Datagram) (k : ℕ) : Datagram := (file.drop (SEGSIZE * (k - 1))).take SEGSIZE

inductive ServerEvent where
  | sendFails
  | selectFails
  | timesOut
  | recvFails
  | data (port : BitVec 16) (k : ℕ)
  | error (port code : BitVec 16) (message : Datagram)
  deriving DecidableEq

/-- Any packet of the server of `file` may arrive in any round. -/
def server (file : Datagram) : Network Unit ServerEvent where
  sendto e _ _ w := if e = .sendFails then none else some w
  wait e w := (w, match e with
    | .selectFails => .selectFails
    | .recvFails => .recvFails
    | .data port k =>
      if 1 ≤ k ∧ k ≤ fileBlocks file then
        .packet port (dataPacket (BitVec.ofNat 16 k) (blockData file k))
      else .timesOut
    | .error port code message => .packet port (htons ERROR ++ htons code ++ message)
    | _ => .timesOut)
  synchnet w := w

section Server

variable {file : Datagram} {e : ServerEvent} {w w' : Unit} {port : BitVec 16} {bytes : Datagram}
  {k i : ℕ}

theorem server_packet (h : (server file).wait e w = (w', .packet port bytes)) :
    (∃ k, 1 ≤ k ∧ k ≤ fileBlocks file ∧
        bytes = dataPacket (BitVec.ofNat 16 k) (blockData file k)) ∨
      ∃ code message, bytes = htons ERROR ++ htons code ++ message := by
  have h : (match e with
    | .selectFails => Reply.selectFails
    | .recvFails => .recvFails
    | .data port k =>
      if 1 ≤ k ∧ k ≤ fileBlocks file then
        .packet port (dataPacket (BitVec.ofNat 16 k) (blockData file k))
      else .timesOut
    | .error port code message => .packet port (htons ERROR ++ htons code ++ message)
    | _ => .timesOut) = .packet port bytes := congrArg Prod.snd h
  cases e with
  | data port k =>
      dsimp only at h
      split at h
      · next hk =>
        cases h
        exact Or.inl ⟨k, hk.1, hk.2, rfl⟩
      · cases h
  | error port code message =>
      cases h
      exact Or.inr ⟨code, message, rfl⟩
  | sendFails => cases h
  | selectFails => cases h
  | timesOut => cases h
  | recvFails => cases h

theorem length_blockData_le : (blockData file k).length ≤ SEGSIZE := List.length_take_le _ _

theorem length_blockData :
    (blockData file k).length = min SEGSIZE (file.length - SEGSIZE * (k - 1)) := by
  unfold blockData
  rw [List.length_take, List.length_drop]

theorem getElem_blockData (h : i < (blockData file k).length) :
    file[SEGSIZE * (k - 1) + i]? = some (blockData file k)[i] := by
  rw [← List.getElem?_eq_getElem h]
  rw [length_blockData] at h
  unfold blockData
  rw [List.getElem?_take_of_lt (by omega), List.getElem?_drop]

end Server

/-! ## Fetching a block -/

section Fetch

variable {file req : Datagram} {s s' : Session Unit ServerEvent} {ret : ℤ} {k : ℕ}

/-- The block `k` of the file is in `buf`. -/
structure Fetched (file : Datagram) (k : ℕ) (t : TftpFile) : Prop where
  some_block : 1 ≤ k ∧ k ≤ fileBlocks file
  bytes : ∀ i < (blockData file k).length, file[SEGSIZE * (k - 1) + i]? = some (t.buf (4 + i))
  eof : t.eof = decide ((blockData file k).length < SEGSIZE)

section Accepted

variable {t : TftpFile} {h : Handled} {code : BitVec 16} {message : Datagram} {j : ℕ}

/-- A block of the file that `tftprrq` accepts has the number that it waits for. -/
theorem RrqAccepts.fetched (hj : 1 ≤ j ∧ j ≤ fileBlocks file) (heof : t.eof = false)
    (haccepts : RrqAccepts (dataPacket (BitVec.ofNat 16 j) (blockData file j)) t h) :
    BitVec.ofNat 16 j = t.block ∧ h.ret = some ((blockData file j).length : ℤ) ∧
      Fetched file j h.file := by
  obtain ⟨-, hnumber, hret, hbuf, heofs⟩ := haccepts
  unfold received at hnumber hbuf
  rw [take_dataPacket length_blockData_le] at hnumber hbuf heofs hret
  have hlen : ((dataPacket (BitVec.ofNat 16 j) (blockData file j)).length : ℤ) - 4 =
      (blockData file j).length := by
    rw [length_dataPacket]
    omega
  rw [hlen] at heofs hret
  refine ⟨?_, hret, hj, ?_, ?_⟩
  · unfold dataPacket at hnumber
    rw [ntohs_write.2] at hnumber
    exact hnumber
  · intro i hi
    rw [getElem_blockData hi, hbuf, hostOrder_of_ge (by omega)]
    have hreads : (t.buf.write 0 (dataPacket (BitVec.ofNat 16 j) (blockData file j))).Reads
        (0 + 4) (blockData file j) := (reads_append.mp reads_write).2
    rw [reads_iff] at hreads
    exact congrArg some (hreads i hi).symm
  · rw [heofs, heof, Bool.false_or]
    simp only [Int.ofNat_lt]

/-- An error message is no data. -/
theorem RrqAccepts.not_error :
    ¬RrqAccepts (htons ERROR ++ htons code ++ message) t h := by
  intro haccepts
  have hopcode := haccepts.opcode
  have hmessage : (htons ERROR ++ htons code ++ message).take PKTSIZE =
      htons ERROR ++ htons code ++ message.take SEGSIZE := rfl
  unfold received at hopcode
  rw [hmessage, ntohs_write.1] at hopcode
  exact absurd hopcode (by decide)

end Accepted

/-- What a network needs so that only the block `k` of `file` is accepted under its number:
`P` holds of its states and keeps other blocks with that number away, and `Q` holds when the
block has arrived. -/
structure FetchRule {W E : Type} (N : Network W E) (file req : Datagram) (k : ℕ)
    (P Q : W → Prop) : Prop where
  sends : ∀ e port w w₁, P w → N.sendto e port req w = some w₁ → P w₁
  waits : ∀ e w, P w → P (N.wait e w).1
  keeps : ∀ w, N.synchnet w = w
  packet : ∀ e w w₁ port bytes, P w → N.wait e w = (w₁, .packet port bytes) →
    (∃ j, 1 ≤ j ∧ j ≤ fileBlocks file ∧
        bytes = dataPacket (BitVec.ofNat 16 j) (blockData file j) ∧
        (BitVec.ofNat 16 j = BitVec.ofNat 16 k → j = k ∧ Q w₁)) ∨
      ∃ code message, bytes = htons ERROR ++ htons code ++ message

theorem FetchRule.tftprrq {W E : Type} {N : Network W E} {P Q : W → Prop}
    {s s' : Session W E} (hrule : FetchRule N file req k P Q) (hP : P s.net)
    (hblock : s.file.block = BitVec.ofNat 16 k)
    (heof : s.file.eof = false) (h : LuojiOs.tftprrq N req s = some (ret, s')) :
    SameWindow s.file s'.file ∧ (ret < 0 ∧ s'.file.eof = false ∨
      ret = (blockData file k).length ∧ Fetched file k s'.file ∧ Q s'.net) := by
  refine exchange_rule
    (I := fun t w => SameWindow s.file t ∧ P w ∧ t.eof = false)
    (Q := fun ret t w => SameWindow s.file t ∧ (ret < 0 ∧ t.eof = false ∨
      ret = (blockData file k).length ∧ Fetched file k t ∧ Q w))
    ⟨?_, ?_, ?_, ?_, ?_⟩ ⟨SameWindow.refl _, hP, heof⟩ h
  · rintro e t w ⟨hsame, -, hnot⟩ -
    exact ⟨hsame, Or.inl ⟨by omega, hnot⟩⟩
  · rintro e t w w₁ ⟨-, -, hnot⟩ - hend
    rw [hnot] at hend
    cases hend
  · rintro e t w w₁ w₂ ⟨hsame, -, hnot⟩ - - -
    exact ⟨hsame, Or.inl ⟨by omega, hnot⟩⟩
  · rintro e t w w₁ w₂ ⟨hsame, hw, hnot⟩ hsend - hwait
    have hw₂ := hrule.waits e w₁ (hrule.sends e _ w w₁ hw hsend)
    rw [hwait] at hw₂
    exact ⟨⟨hsame, hw₂, hnot⟩,
      fun r n hn => ⟨hsame, Or.inl ⟨rrqTimeout_neg hn, hnot⟩⟩⟩
  · rintro e t w w₁ w₂ port bytes ⟨hsame, hw, hnot⟩ hsend - hwait
    have hw₁ := hrule.sends e _ w w₁ hw hsend
    have hw₂ := hrule.waits e w₁ hw₁
    rw [hwait] at hw₂
    rw [hrule.keeps, ite_self]
    obtain ⟨hkeeps, hcase⟩ := rrqPacket_spec port bytes t
    rcases hcase with ⟨hret, hsameEof⟩ | haccepts
    · constructor
      · intro n hn
        rcases hret with hret | hret
        · rw [hret] at hn
          cases hn
        · rw [hret] at hn
          cases hn
          exact ⟨hsame.trans hkeeps, Or.inl ⟨by omega, hsameEof.trans hnot⟩⟩
      · intro _
        exact ⟨hsame.trans hkeeps, hw₂, hsameEof.trans hnot⟩
    · constructor
      · intro n hn
        refine ⟨hsame.trans hkeeps, Or.inr ?_⟩
        rcases hrule.packet e w₁ w₂ port bytes hw₁ hwait with
          ⟨j, hj, hjle, rfl, honly⟩ | ⟨code, message, rfl⟩
        · obtain ⟨hnumber, hret, hfetched⟩ := haccepts.fetched ⟨hj, hjle⟩ hnot
          obtain rfl := Option.some.inj (hret.symm.trans hn)
          rw [hsame.block, hblock] at hnumber
          obtain ⟨rfl, hw⟩ := honly hnumber
          exact ⟨rfl, hfetched, hw⟩
        · exact absurd haccepts RrqAccepts.not_error
      · intro hn
        rw [haccepts.ret] at hn
        cases hn

/-- Before the last block, `tftprrq` fails or has fetched its block. -/
theorem tftprrq_fetches (hk : k < 65536) (hfile : fileBlocks file < 65536)
    (hblock : s.file.block = BitVec.ofNat 16 k) (heof : s.file.eof = false)
    (h : tftprrq (server file) req s = some (ret, s')) :
    SameWindow s.file s'.file ∧
      (ret < 0 ∨ ret = (blockData file k).length ∧ Fetched file k s'.file) := by
  have hrule : FetchRule (server file) file req k (fun _ => True) (fun _ => True) := by
    refine ⟨fun _ _ _ _ _ _ => trivial, fun _ _ _ => trivial, fun _ => rfl, ?_⟩
    rintro e w w₁ port bytes - hwait
    rcases server_packet hwait with ⟨j, hj, hjle, rfl⟩ | herror
    · refine Or.inl ⟨j, hj, hjle, rfl, ?_⟩
      intro hnumber
      have hnat := congrArg BitVec.toNat hnumber
      rw [BitVec.toNat_ofNat, BitVec.toNat_ofNat, Nat.mod_eq_of_lt (by omega),
        Nat.mod_eq_of_lt hk] at hnat
      exact ⟨hnat, trivial⟩
    · exact Or.inr herror
  obtain ⟨hsame, hfail | ⟨hret, hfetched, -⟩⟩ := hrule.tftprrq trivial hblock heof h
  · exact ⟨hsame, Or.inl hfail.1⟩
  · exact ⟨hsame, Or.inr ⟨hret, hfetched⟩⟩

/-- After the last block, `tftprrq` only sends. -/
theorem tftprrq_ended {W E : Type} {N : Network W E} {s s' : Session W E}
    (heof : s.file.eof = true) (h : tftprrq N req s = some (ret, s')) :
    s'.file = s.file ∧ (ret = -1 ∨ ret = 0) := by
  refine exchange_rule (I := fun t _ => t = s.file)
    (Q := fun ret t _ => t = s.file ∧ (ret = -1 ∨ ret = 0)) ⟨?_, ?_, ?_, ?_, ?_⟩ rfl h
  · rintro e t w rfl -
    exact ⟨rfl, Or.inl rfl⟩
  · rintro e t w w₁ rfl - -
    exact ⟨rfl, Or.inr rfl⟩
  · rintro e t w w₁ w₂ rfl - hgo
    rw [heof] at hgo
    cases hgo
  · rintro e t w w₁ w₂ rfl - hgo
    rw [heof] at hgo
    cases hgo
  · rintro e t w w₁ w₂ port bytes rfl - hgo
    rw [heof] at hgo
    cases hgo

end Fetch

/-! ## The window -/

/-- The bytes of the file from `a` to `b` are in `buf`, and the next ones can be fetched. -/
structure Reading (file : Datagram) (a b : ℕ) (t : TftpFile) : Prop where
  mode : t.flags &&& O_ACCMODE = O_RDONLY
  start : t.start = a
  stop : t.stop = b
  le : a ≤ b
  stop_le : b ≤ file.length
  below : (a : ℤ) ≤ t.foffs
  bytes : ∀ i, a + i < b → file[a + i]? = some (t.buf (4 + i))
  ended : t.eof = true → b = file.length
  going : t.eof = false → a < b ∧ ∃ k, t.block = BitVec.ofNat 16 k ∧ b = SEGSIZE * k

section Window

variable {file : Datagram} {a b f nb : ℕ} {t : TftpFile}

/-- The bytes that a round of `tftpread` copies. -/
theorem Reading.copied (h : Reading file a b t) (hf : t.foffs = f) (n : ℕ)
    (hn : n = 0 ∨ f + n ≤ b) :
    ((List.range n).map fun i => t.buf (4 + (t.foffs - t.start).toNat + i)) =
      (file.drop f).take n := by
  have hle := h.stop_le
  have hbelow := h.below
  apply List.ext_getElem?
  intro i
  by_cases hi : i < n
  · have hplace : a + (f - a) + i = f + i := by omega
    have hsrc : (t.foffs - t.start).toNat = f - a := by
      rw [hf, h.start]
      omega
    have hbyte := h.bytes (f - a + i) (by omega)
    rw [← Nat.add_assoc, hplace] at hbyte
    rw [List.getElem?_take_of_lt hi, List.getElem?_drop, hbyte, List.getElem?_map,
      List.getElem?_range hi, hsrc, Option.map_some, Nat.add_assoc]
  · rw [List.getElem?_eq_none (by simp; omega), List.getElem?_eq_none]
    rw [List.length_take]
    omega

theorem Reading.available (h : Reading file a b t) (hf : t.foffs = f) :
    t.available nb = if f < b then min (b - f) nb else 0 := by
  have hbelow := h.below
  unfold TftpFile.available
  rw [h.start, h.stop, hf]
  by_cases hlt : f < b
  · rw [if_pos hlt, if_pos (by omega)]
    congr 1
    omega
  · rw [if_neg hlt, if_neg (by omega)]

/-- The window after a block was fetched. -/
theorem Reading.next {t' : TftpFile} {k : ℕ} (h : Reading file a b t) (hb : b = SEGSIZE * k)
    (hsame : SameWindow { t with block := BitVec.ofNat 16 (k + 1) } t')
    (hfetched : Fetched file (k + 1) t') (hf : (b : ℤ) ≤ t.foffs) :
    Reading file b (b + (blockData file (k + 1)).length)
      { t' with start := t'.stop, stop := t'.stop + (blockData file (k + 1)).length } := by
  have hlen : (blockData file (k + 1)).length = min SEGSIZE (file.length - SEGSIZE * k) := by
    rw [length_blockData, Nat.add_sub_cancel]
  have hle := h.stop_le
  have hpos : 0 < SEGSIZE := by decide
  constructor
  · exact hsame.flags ▸ h.mode
  · exact hsame.stop.trans h.stop
  · dsimp only
    rw [hsame.stop, h.stop]
    rfl
  · omega
  · omega
  · dsimp only
    rw [hsame.foffs]
    exact hf
  · intro i hi
    have hbyte := hfetched.bytes i (by omega)
    rwa [Nat.add_sub_cancel, ← hb] at hbyte
  · intro heof
    dsimp only at heof
    rw [hfetched.eof, decide_eq_true_eq] at heof
    omega
  · intro heof
    dsimp only at heof
    rw [hfetched.eof, decide_eq_false_iff_not] at heof
    refine ⟨by omega, k + 1, hsame.block, ?_⟩
    rw [Nat.mul_add, Nat.mul_one]
    omega

/-- The window after the last block. -/
theorem Reading.finish {t' : TftpFile} {block : BitVec 16} (h : Reading file a b t)
    (heof : t.eof = true) (ht' : t' = { t with block := block }) (hf : (b : ℤ) ≤ t.foffs) :
    Reading file b b { t' with start := t'.stop, stop := t'.stop + 0 } := by
  subst ht'
  constructor
  · exact h.mode
  · exact h.stop
  · exact (Int.add_zero _).trans h.stop
  · exact Nat.le_refl b
  · exact h.stop_le
  · exact hf
  · intro i hi
    omega
  · exact h.ended
  · intro hnot
    rw [heof] at hnot
    cases hnot

theorem Reading.moved {foffs : ℤ} (h : Reading file a b t) (hfoffs : (a : ℤ) ≤ foffs) :
    Reading file a b { t with foffs := foffs } :=
  ⟨h.mode, h.start, h.stop, h.le, h.stop_le, hfoffs, h.bytes, h.ended, h.going⟩

end Window

/-! ## Reading -/

/-- What the exchange for the next block does, for a window `Inv` of the file: `Lost` holds
where it fails. -/
structure RefillRule {W E : Type} (N : Network W E) (file : Datagram)
    (Inv : ℕ → ℕ → TftpFile → W → Prop) (Lost : TftpFile → W → Prop) : Prop where
  reading : ∀ {a b : ℕ} {t w}, Inv a b t w → Reading file a b t
  moves : ∀ {a b : ℕ} {t w foffs}, Inv a b t w → (a : ℤ) ≤ foffs →
    Inv a b { t with foffs := foffs } w
  refills : ∀ {a b ret} {s s' : Session W E}, Inv a b s.file s.net → (b : ℤ) ≤ s.file.foffs →
    tftprrq N (htons ACK ++ htons s.file.block) { s with file := s.file.tftpnxtblk } =
      some (ret, s') →
    ret < 0 ∧ Lost s'.file s'.net ∨ s'.file.foffs = s.file.foffs ∧
      ∃ b', Inv b b' { s'.file with start := s'.file.stop, stop := s'.file.stop + ret } s'.net

section Read

variable {file out : Datagram} {a b f nb nread fuel : ℕ}

/-- A refill fails, or the window moves on to where the last one stopped. -/
theorem Reading.refill {ret : ℤ} {s s' : Session Unit ServerEvent} {req : Datagram}
    (hfile : fileBlocks file < 65535) (h : Reading file a b s.file) (hf : (b : ℤ) ≤ s.file.foffs)
    (hr : tftprrq (server file) req { s with file := s.file.tftpnxtblk } = some (ret, s')) :
    ret < 0 ∨ s'.file.foffs = s.file.foffs ∧ ∃ b', Reading file b b'
      { s'.file with start := s'.file.stop, stop := s'.file.stop + ret } := by
  cases heof : s.file.eof with
  | true =>
      have hended : s.file.tftpnxtblk.eof = true := heof
      obtain ⟨hsame, rfl | rfl⟩ :=
        tftprrq_ended (s := { s with file := s.file.tftpnxtblk }) hended hr
      · exact Or.inl (by omega)
      · refine Or.inr ⟨by rw [hsame]; rfl, b, ?_⟩
        exact h.finish heof hsame hf
  | false =>
      obtain ⟨hlt, k, hblock, hb⟩ := h.going heof
      have hle := h.stop_le
      have hk : k + 1 < 65536 := by
        unfold fileBlocks at hfile
        unfold SEGSIZE at hb hfile
        omega
      have hnext : s.file.tftpnxtblk.block = BitVec.ofNat 16 (k + 1) := by
        rw [BitVec.ofNat_add, ← hblock]
        rfl
      have heof' : s.file.tftpnxtblk.eof = false := heof
      obtain ⟨hsame, hret | ⟨rfl, hfetched⟩⟩ :=
        tftprrq_fetches (s := { s with file := s.file.tftpnxtblk }) hk
          (Nat.lt_succ_of_lt hfile) hnext heof' hr
      · exact Or.inl hret
      · refine Or.inr ⟨hsame.foffs, _, h.next hb ?_ hfetched hf⟩
        rw [← hnext]
        exact hsame

/-- The bytes that are copied first, and those that are still wanted. -/
theorem take_split {n : ℕ} (h : n ≤ nb) :
    (file.drop f).take n ++ (file.drop (f + n)).take (nb - n) = (file.drop f).take nb := by
  have hsum : nb = n + (nb - n) := by omega
  conv_rhs => rw [hsum, List.take_add, List.drop_drop]

/-- An empty window is at the end of the file. -/
theorem Reading.nothing_left {t : TftpFile} (h : Reading file a b t) (hf : t.foffs = f)
    (hend : ¬(nb ≠ 0 ∧ t.start < t.stop)) : (file.drop f).take nb = [] := by
  rcases Nat.eq_zero_or_pos nb with rfl | hpos
  · exact List.take_zero
  · have hstop : b ≤ a := by
      by_contra hlt
      apply hend
      rw [h.start, h.stop]
      omega
    have heof : t.eof = true := by
      by_contra hnot
      have hgoing := (h.going (by simpa using hnot)).1
      omega
    have hbelow := h.below
    have hlast := h.ended heof
    rw [List.drop_eq_nil_of_le (by omega), List.take_nil]

/-- A read fails, or delivers the bytes of the file from its position on. -/
theorem RefillRule.readFrom {W E : Type} {N : Network W E} {Inv : ℕ → ℕ → TftpFile → W → Prop}
    {Lost : TftpFile → W → Prop} {s : Session W E} {r : ReadResult W E}
    (hrule : RefillRule N file Inv Lost) (h : Inv a b s.file s.net)
    (hf : s.file.foffs = f) (hnb : nb ≤ nread)
    (hr : tftpreadFrom N nread fuel nb out s = some r) :
    r.ret = -1 ∧ Lost r.session.file r.session.net ∨ r.bytes = out ++ (file.drop f).take nb ∧
      r.ret = nread - nb + ((file.drop f).take nb).length ∧
      r.session.file.foffs = f + ((file.drop f).take nb).length ∧
      ∃ a' b', Inv a' b' r.session.file r.session.net := by
  induction fuel generalizing nb out s a b f with
  | zero => cases hr
  | succ fuel ih =>
      have hread := hrule.reading h
      have hle := hread.stop_le
      have hbelow := hread.below
      simp only [tftpreadFrom] at hr
      by_cases hgo : nb ≠ 0 ∧ s.file.start < s.file.stop
      · rw [if_pos hgo, hread.available hf] at hr
        have hlt : a < b := by
          have := hgo.2
          rw [hread.start, hread.stop] at this
          omega
        generalize hn : (if f < b then min (b - f) nb else 0) = n at hr
        have hcount : n = 0 ∧ b ≤ f ∨ n = min (b - f) nb ∧ f < b := by
          split at hn
          · next hfb => exact Or.inr ⟨hn.symm, hfb⟩
          · next hfb => exact Or.inl ⟨hn.symm, by omega⟩
        rw [hread.copied hf n (by omega)] at hr
        have hsplit := @take_split file f nb n (by omega)
        have hlen : ((file.drop f).take nb).length =
            n + ((file.drop (f + n)).take (nb - n)).length := by
          rw [← hsplit, List.length_append, List.length_take, List.length_drop]
          omega
        have hmoved : ({ s.file with foffs := s.file.foffs + n } : TftpFile).foffs =
            ((f + n : ℕ) : ℤ) := by
          dsimp only
          rw [hf]
          rfl
        have hwindow : Inv a b { s.file with foffs := s.file.foffs + n } s.net :=
          hrule.moves h (by omega)
        have hrest : ∀ {a' b' : ℕ} {u : Session W E}, Inv a' b' u.file u.net →
            u.file.foffs = ((f + n : ℕ) : ℤ) →
            tftpreadFrom N nread fuel (nb - n) (out ++ (file.drop f).take n) u = some r →
            r.ret = -1 ∧ Lost r.session.file r.session.net ∨
              r.bytes = out ++ (file.drop f).take nb ∧
              r.ret = nread - nb + ((file.drop f).take nb).length ∧
              r.session.file.foffs = f + ((file.drop f).take nb).length ∧
              ∃ a' b', Inv a' b' r.session.file r.session.net := by
          intro a' b' u hwindow' hf' hr'
          rcases ih hwindow' hf' (by omega) hr' with hret | ⟨hbytes, hret, hfoffs, hend⟩
          · exact Or.inl hret
          · refine Or.inr ⟨?_, ?_, ?_, hend⟩
            · rw [hbytes, List.append_assoc, hsplit]
            · rw [hret, hlen]
              omega
            · rw [hfoffs, hlen]
              omega
        split at hr
        · next hdrained =>
          have hpast : (b : ℤ) ≤ ({ s.file with foffs := s.file.foffs + n } : TftpFile).foffs := by
            rw [← hread.stop]
            exact hdrained
          split at hr
          · cases hr
          · next ret s' hrrq =>
            rcases hrule.refills (s := { s with
              file := { s.file with foffs := s.file.foffs + n } }) hwindow hpast hrrq with
              ⟨hret, hlost⟩ | ⟨hsame, b', hnext⟩
            · rw [if_pos hret] at hr
              cases hr
              exact Or.inl ⟨rfl, hlost⟩
            · split at hr
              · next hret =>
                -- a window does not end before it begins
                have hnot := (hrule.reading hnext).le
                have hstart := (hrule.reading hnext).start
                have hstop := (hrule.reading hnext).stop
                dsimp only at hstart hstop
                omega
              · exact hrest (u := { s' with file := { s'.file with
                  start := s'.file.stop, stop := s'.file.stop + ret } }) hnext
                  (hsame.trans hmoved) hr
        · exact hrest (u := { s with file := { s.file with foffs := s.file.foffs + n } })
            hwindow hmoved hr
      · rw [if_neg hgo] at hr
        cases hr
        refine Or.inr ?_
        rw [hread.nothing_left hf hgo, List.append_nil]
        exact ⟨rfl, by simp, by simpa using hf, a, b, h⟩

theorem RefillRule.read {W E : Type} {N : Network W E} {Inv : ℕ → ℕ → TftpFile → W → Prop}
    {Lost : TftpFile → W → Prop} {s : Session W E} {r : ReadResult W E}
    (hrule : RefillRule N file Inv Lost) (h : Inv a b s.file s.net) (hf : s.file.foffs = f)
    (hr : tftpread N nread s = some r) :
    r.ret = -1 ∧ Lost r.session.file r.session.net ∨ r.bytes = (file.drop f).take nread ∧
      r.ret = r.bytes.length ∧ r.session.file.foffs = s.file.foffs + r.ret ∧
      ∃ a' b', Inv a' b' r.session.file r.session.net := by
  unfold tftpread at hr
  rw [if_neg (not_not.mpr (hrule.reading h).mode)] at hr
  rcases hrule.readFrom h hf (Nat.le_refl nread) hr with hret | ⟨hbytes, hret, hfoffs, hend⟩
  · exact Or.inl hret
  · rw [List.nil_append] at hbytes
    rw [Int.sub_self, Int.zero_add] at hret
    exact Or.inr ⟨hbytes, by rw [hret, hbytes], by rw [hfoffs, hret, hf], hend⟩

theorem server_refills (hfile : fileBlocks file < 65535) :
    RefillRule (server file) file (fun a b t _ => Reading file a b t) (fun _ _ => True) where
  reading h := h
  moves h hfoffs := h.moved hfoffs
  refills h hf hr := by
    rcases h.refill hfile hf hr with hret | hnext
    · exact Or.inl ⟨hret, trivial⟩
    · exact Or.inr hnext

end Read

/-! ## Runs -/

/-- The calls on a file that is open for reading. -/
inductive ReadCall where
  | read (nread : ℕ)
  | seek (offs : ℤ) (how : Whence)

/-- A run ends with a call of `tftpread` that fails. -/
def ReadCall.step {W E : Type} (N : Network W E) (s : Session W E) :
    ReadCall → Option (Session W E)
  | read nread => (tftpread N nread s).bind fun r => if r.ret < 0 then none else some r.session
  | seek offs how => some { s with file := (tftplseek offs how s.file).2 }

/-- `tftpopen` has opened the file for reading. -/
def OpenedForReading {W E : Type} (N : Network W E) (s : Session W E) : Prop :=
  ∃ ready filename flags ackbuf rounds w, flags &&& O_ACCMODE = O_RDONLY ∧
    tftpopen N ready filename flags ackbuf rounds w = some (0, s)

section Runs

variable {file : Datagram} {a b f nread : ℕ} {s : Session Unit ServerEvent}
  {r : ReadResult Unit ServerEvent}

/-- The window when the first block was fetched. -/
theorem Reading.first {port flags : BitVec 16} {buf ackbuf : Bytes} {t' : TftpFile}
    (hmode : flags &&& O_ACCMODE = O_RDONLY)
    (hsame : SameWindow ⟨port, 1, flags, false, 0, 0, 0, buf, ackbuf⟩ t')
    (hfetched : Fetched file 1 t') :
    Reading file 0 (blockData file 1).length
      { t' with stop := t'.start + (blockData file 1).length } := by
  have hlen : (blockData file 1).length = min SEGSIZE file.length := by
    rw [length_blockData, Nat.sub_self, Nat.mul_zero, Nat.sub_zero]
  constructor
  · exact hsame.flags ▸ hmode
  · exact hsame.start
  · dsimp only
    rw [hsame.start, Int.zero_add]
  · exact Nat.zero_le _
  · omega
  · exact hsame.foffs ▸ Int.le_refl 0
  · intro i hi
    have hbyte := hfetched.bytes i (by omega)
    rwa [Nat.sub_self, Nat.mul_zero] at hbyte
  · intro heof
    dsimp only at heof
    rw [hfetched.eof, decide_eq_true_eq] at heof
    omega
  · intro heof
    dsimp only at heof
    rw [hfetched.eof, decide_eq_false_iff_not] at heof
    have hpos : 0 < SEGSIZE := by decide
    exact ⟨by omega, 1, hsame.block, by omega⟩

theorem Reading.of_open (hfile : fileBlocks file < 65535)
    (h : OpenedForReading (server file) s) : ∃ b, Reading file 0 b s.file := by
  obtain ⟨ready, filename, flags, ackbuf, rounds, w, hmode, hopen⟩ := h
  simp only [tftpopen] at hopen
  split at hopen
  · cases hopen
  · split at hopen
    · cases hopen
    · obtain ⟨⟨size, s'⟩, hrrq, hrest⟩ := Option.bind_eq_some_iff.mp hopen
      have hfirst := tftprrq_fetches (k := 1) (by omega) (Nat.lt_succ_of_lt hfile) rfl rfl hrrq
      obtain ⟨hsame, hsize | ⟨rfl, hfetched⟩⟩ := hfirst
      · dsimp only at hrest
        rw [if_pos hsize] at hrest
        cases hrest
      · dsimp only at hrest
        split at hrest
        · cases hrest
        · cases hrest
          exact ⟨_, Reading.first hmode hsame hfetched⟩

theorem Reading.read (hfile : fileBlocks file < 65535) (h : Reading file a b s.file)
    (hf : s.file.foffs = f) (hr : tftpread (server file) nread s = some r) :
    r.ret = -1 ∨ r.bytes = (file.drop f).take nread ∧ r.ret = r.bytes.length ∧
      r.session.file.foffs = s.file.foffs + r.ret ∧
      ∃ a' b', Reading file a' b' r.session.file :=
  ((server_refills hfile).read h hf hr).imp_left And.left

theorem Reading.seek {t : TftpFile} (h : Reading file a b t) (offs : ℤ) (how : Whence) :
    Reading file a b (tftplseek offs how t).2 := by
  have hto : ∀ noffs : ℤ, Reading file a b
      (if t.flags &&& O_ACCMODE = O_WRONLY then
        if noffs ≠ t.foffs then ((-1 : ℤ), t) else (t.foffs, t)
      else if noffs < t.start then (-1, t)
      else (noffs, { t with foffs := noffs })).2 := by
    intro noffs
    have hmode : ¬t.flags &&& O_ACCMODE = O_WRONLY := by
      rw [h.mode]
      decide
    rw [if_neg hmode]
    split
    · exact h
    · next hstart =>
      rw [h.start] at hstart
      exact h.moved (by omega)
  cases how with
  | set => exact hto offs
  | cur => exact hto (t.foffs + offs)
  | other => exact h

theorem reading_of_reach (hfile : fileBlocks file < 65535)
    (h : Runs.Reach (ReadCall.step (server file)) (fun _ _ => True)
      (OpenedForReading (server file)) s) : ∃ a b, Reading file a b s.file := by
  refine h.invariant (P := fun s => ∃ a b, Reading file a b s.file) ?_ ?_
  · intro s hopen
    exact ⟨0, Reading.of_open hfile hopen⟩
  · rintro s c s' ⟨a, b, hs⟩ - hstep
    cases c with
    | read nread =>
        obtain ⟨r, hr, hend⟩ := Option.bind_eq_some_iff.mp hstep
        have hnonneg : s.file.foffs = ((s.file.foffs.toNat : ℕ) : ℤ) := by
          have := hs.below
          omega
        split at hend
        · cases hend
        · next hret =>
          cases hend
          rcases hs.read hfile hnonneg hr with hfail | ⟨-, -, -, hwindow⟩
          · omega
          · exact hwindow
    | seek offs how =>
        cases hstep
        exact ⟨a, b, hs.seek offs how⟩

/-- After any run of reads and seeks without an error, a read that does not fail delivers the
bytes of the file from the position `foffs` on, all that are asked for or all that there are,
and moves the position behind them. -/
theorem tftpread_delivers (hfile : fileBlocks file < 65535)
    (h : Runs.Reach (ReadCall.step (server file)) (fun _ _ => True)
      (OpenedForReading (server file)) s)
    (hr : tftpread (server file) nread s = some r) (hret : 0 ≤ r.ret) :
    0 ≤ s.file.foffs ∧ r.bytes = (file.drop s.file.foffs.toNat).take nread ∧
      r.ret = (min nread (file.length - s.file.foffs.toNat) : ℕ) ∧
      r.session.file.foffs = s.file.foffs + r.ret := by
  obtain ⟨a, b, hs⟩ := reading_of_reach hfile h
  have hbelow := hs.below
  have hnonneg : s.file.foffs = ((s.file.foffs.toNat : ℕ) : ℤ) := by omega
  rcases hs.read hfile hnonneg hr with hfail | ⟨hbytes, hlen, hfoffs, -⟩
  · omega
  · refine ⟨by omega, hbytes, ?_, hfoffs⟩
    rw [hlen, hbytes, List.length_take, List.length_drop]

end Runs

/-- The rounds of a download of three bytes: the answer comes after a timeout and twice. -/
def shortRounds : List ServerEvent :=
  [.timesOut, .data 7000 1, .data 7000 1, .data 7000 1]

/-- Two reads of a file of three bytes. -/
theorem tftpread_delivers_short :
    ∃ s r, Runs.Reach (ReadCall.step (server [10, 20, 30])) (fun _ _ => True)
        (OpenedForReading (server [10, 20, 30])) s ∧
      tftpread (server [10, 20, 30]) 5 s = some r ∧ r.bytes = [30] := by
  obtain ⟨⟨ret, s₀⟩, hopen, hcheck⟩ := Runs.exists_of_any
    (show (tftpopen (server [10, 20, 30]) true [] 0 (fun _ => 0) shortRounds ()).any
      (fun p => p.1 = 0 ∧ ((Runs.run (ReadCall.step (server [10, 20, 30])) p.2 [.read 2]).any
        fun s => s.file.foffs = 2 ∧ (tftpread (server [10, 20, 30]) 5 s).any fun r => 0 ≤ r.ret))
      = true by decide)
  obtain ⟨hret, hrun⟩ := of_decide_eq_true hcheck
  obtain ⟨s, hs, hread⟩ := Runs.exists_of_any hrun
  obtain ⟨hfoffs, hread⟩ := of_decide_eq_true hread
  obtain ⟨r, hr, hnonneg⟩ := Runs.exists_of_any hread
  have hstart : OpenedForReading (server [10, 20, 30]) s₀ := by
    refine ⟨true, [], 0, fun _ => 0, shortRounds, (), rfl, hopen.trans ?_⟩
    exact congrArg some (Prod.ext hret rfl)
  have hreach := (Runs.Reach.start hstart).of_run hs
  refine ⟨s, r, hreach, hr, ?_⟩
  rw [(tftpread_delivers (by decide) hreach hr (of_decide_eq_true hnonneg)).2.1, hfoffs]
  rfl

end LuojiOs
