import LuojiOs.Tftp.Exchange
import LuojiOs.Support.Runs

/-!
# Uploads

The server stores the block that it expects next, and acknowledges only what it has stored.
The network may bring any packet that was sent to the server, and any acknowledgement to the
client, at any time and as often as it likes.  An acknowledgement of the last block that was
sent shows that the server has all blocks.
-/

namespace LuojiOs

open Tftp Bytes

/-! ## The server and the network -/

/-- What was sent to the server, and what it has stored. -/
structure Link where
  sent : List Datagram
  started : Bool
  stored : List Datagram

namespace Link

/-- A packet reaches the server. -/
def deliver (w : Link) : Datagram → Link
  | b₀ :: b₁ :: b₂ :: b₃ :: data =>
    if b₀ ++ b₁ = WRQ then { w with started := true }
    else if b₀ ++ b₁ = DATA ∧ w.started ∧ b₂ ++ b₃ = BitVec.ofNat 16 (w.stored.length + 1) then
      { w with stored := w.stored ++ [data] }
    else w
  | _ => w

/-- The block `k` may be acknowledged; 0 stands for the request. -/
def Acks (k : ℕ) (w : Link) : Prop := w.started = true ∧ k ≤ w.stored.length

instance (k : ℕ) (w : Link) : Decidable (w.Acks k) :=
  inferInstanceAs (Decidable (_ ∧ _))

end Link

inductive LinkOutcome where
  | selectFails
  | timesOut
  | recvFails
  | ack (port : BitVec 16) (k : ℕ)
  | error (port code : BitVec 16) (message : Datagram)

/-- Whether the packet can be sent, which packets reach the server then, and what the client
sees. -/
structure LinkEvent where
  fails : Bool
  delivered : List ℕ
  outcome : LinkOutcome

namespace LinkEvent

def deliver (e : LinkEvent) (w : Link) : Link :=
  e.delivered.foldl (fun w i => (w.sent[i]?).elim w w.deliver) w

def reply (e : LinkEvent) (w : Link) : Reply :=
  match e.outcome with
  | .selectFails => .selectFails
  | .timesOut => .timesOut
  | .recvFails => .recvFails
  | .ack port k => if w.Acks k then .packet port (ackPacket (BitVec.ofNat 16 k)) else .timesOut
  | .error port code message => .packet port (htons ERROR ++ htons code ++ message)

end LinkEvent

def link : Network Link LinkEvent where
  sendto e _ d w := if e.fails then none else some { w with sent := w.sent ++ [d] }
  wait e w := (e.deliver w, e.reply (e.deliver w))
  synchnet w := w

/-! ## Packets in flight -/

/-- The packets in flight are the request and blocks of the list, and the server has stored
the first ones of them. -/
structure InFlight (blocks : List Datagram) (w : Link) : Prop where
  few : blocks.length < 65536
  sent : ∀ d ∈ w.sent, (∃ l, d = htons WRQ ++ l) ∨
    ∃ i, ∃ h : i < blocks.length, d = dataPacket (BitVec.ofNat 16 (i + 1)) blocks[i]
  stored : w.stored <+: blocks

namespace InFlight

variable {blocks : List Datagram} {w w₁ : Link} {d part : Datagram} {e : LinkEvent} {k : ℕ}

theorem deliver (h : InFlight blocks w) (hd : d ∈ w.sent) : InFlight blocks (w.deliver d) := by
  unfold Link.deliver
  split
  · next b₀ b₁ b₂ b₃ data =>
    split
    · exact ⟨h.few, h.sent, h.stored⟩
    · next hwrq =>
      split
      · next hnext =>
        refine ⟨h.few, h.sent, ?_⟩
        rcases h.sent _ hd with ⟨l, hl⟩ | ⟨i, hi, hpacket⟩
        · injection hl with hb₀ hl
          injection hl with hb₁ hl
          rw [hb₀, hb₁] at hwrq
          exact absurd (bytes_of_word WRQ) hwrq
        · injection hpacket with hb₀ hpacket
          injection hpacket with hb₁ hpacket
          injection hpacket with hb₂ hpacket
          injection hpacket with hb₃ hdata
          have hfew := h.few
          have hle := h.stored.length_le
          have hblock := hnext.2.2
          rw [hb₂, hb₃, bytes_of_word] at hblock
          have hnat := congrArg BitVec.toNat hblock
          rw [BitVec.toNat_ofNat, BitVec.toNat_ofNat] at hnat
          have hplace : i = w.stored.length := by omega
          obtain ⟨rest, hrest⟩ := h.stored
          obtain ⟨c, rest, rfl⟩ := List.exists_cons_of_ne_nil (show rest ≠ [] by
            rintro rfl
            rw [List.append_nil] at hrest
            rw [hrest] at hplace
            omega)
          refine ⟨rest, ?_⟩
          have hc : blocks[i] = c := by
            subst hplace
            simp only [← hrest]
            rw [List.getElem_append_right (Nat.le_refl _)]
            simp
          have hdata : data = blocks[i] := hdata
          rw [hdata, hc, ← hrest, List.append_assoc]
          rfl
      · exact h
  · exact h

/-- What is stored stays stored. -/
theorem stored_deliver : w.stored <+: (w.deliver d).stored := by
  unfold Link.deliver
  split
  · split
    · exact List.prefix_refl _
    · split
      · exact List.prefix_append _ _
      · exact List.prefix_refl _
  · exact List.prefix_refl _

theorem delivered (h : InFlight blocks w) : InFlight blocks (e.deliver w) := by
  unfold LinkEvent.deliver
  generalize e.delivered = is
  induction is generalizing w with
  | nil => exact h
  | cons i is ih =>
      rw [List.foldl_cons]
      apply ih
      cases hi : w.sent[i]? with
      | none => exact h
      | some d => exact h.deliver (List.mem_of_getElem? hi)

/-- The next block may be sent from now on. -/
theorem extend (h : InFlight blocks w) (hfew : blocks.length + 1 < 65536) :
    InFlight (blocks ++ [part]) w where
  few := by
    rw [List.length_append, List.length_singleton]
    exact hfew
  sent := by
    intro c hc
    rcases h.sent c hc with hwrq | ⟨i, hi, hpacket⟩
    · exact Or.inl hwrq
    · refine Or.inr ⟨i, by simp; omega, ?_⟩
      rw [hpacket, List.getElem_append_left hi]
  stored := h.stored.trans (List.prefix_append _ _)

/-- A packet is sent, for the first time or again. -/
theorem send (h : InFlight blocks w) (hd : (∃ l, d = htons WRQ ++ l) ∨
      ∃ i, ∃ h : i < blocks.length, d = dataPacket (BitVec.ofNat 16 (i + 1)) blocks[i]) :
    InFlight blocks { w with sent := w.sent ++ [d] } where
  few := h.few
  sent := by
    intro c hc
    rcases List.mem_append.mp hc with hc | hc
    · exact h.sent c hc
    · rw [List.mem_singleton.mp hc]
      exact hd
  stored := h.stored

theorem of_sendto {port : BitVec 16} (h : InFlight blocks w)
    (hd : (∃ l, d = htons WRQ ++ l) ∨
      ∃ i, ∃ h : i < blocks.length, d = dataPacket (BitVec.ofNat 16 (i + 1)) blocks[i])
    (hsend : link.sendto e port d w = some w₁) : InFlight blocks w₁ := by
  simp only [link] at hsend
  split at hsend
  · cases hsend
  · cases hsend
    exact h.send hd

/-- The last block is acknowledged only when all are stored. -/
theorem stored_of_acks (h : InFlight blocks w) (hk : w.Acks k)
    (hlast : BitVec.ofNat 16 k = BitVec.ofNat 16 blocks.length) : w.stored = blocks := by
  have hfew := h.few
  have hle := h.stored.length_le
  have hkle := hk.2
  have hnat := congrArg BitVec.toNat hlast
  rw [BitVec.toNat_ofNat, BitVec.toNat_ofNat, Nat.mod_eq_of_lt (by omega),
    Nat.mod_eq_of_lt hfew] at hnat
  exact h.stored.eq_of_length (by omega)

end InFlight

/-! ## One transfer -/

section Transfer

variable {blocks : List Datagram} {req part : Datagram} {size ret : ℤ}
  {s s' : Session Link LinkEvent} {n : ℕ}

theorem link_packet {e : LinkEvent} {w w' : Link} {port : BitVec 16} {bytes : Datagram}
    (h : link.wait e w = (w', .packet port bytes)) :
    w' = e.deliver w ∧ ((∃ k, w'.Acks k ∧ bytes = ackPacket (BitVec.ofNat 16 k)) ∨
      ∃ code message, bytes = htons ERROR ++ htons code ++ message) := by
  have hw : e.deliver w = w' := congrArg Prod.fst h
  have hreply : e.reply (e.deliver w) = .packet port bytes := congrArg Prod.snd h
  refine ⟨hw.symm, ?_⟩
  rw [hw] at hreply
  unfold LinkEvent.reply at hreply
  split at hreply
  · cases hreply
  · cases hreply
  · cases hreply
  · split at hreply
    · next hk =>
      cases hreply
      exact Or.inl ⟨_, hk, rfl⟩
    · cases hreply
  · cases hreply
    exact Or.inr ⟨_, _, rfl⟩

/-- `tftpwrq` fails, or the server has stored all blocks up to the one that was sent. -/
theorem tftpwrq_stores (h : InFlight blocks s.net)
    (hreq : (∃ l, req = htons WRQ ++ l) ∨
      ∃ i, ∃ h : i < blocks.length, req = dataPacket (BitVec.ofNat 16 (i + 1)) blocks[i])
    (hblock : s.file.block = BitVec.ofNat 16 blocks.length)
    (hr : tftpwrq link req size s = some (ret, s')) :
    SameWindow s.file s'.file ∧ s'.file.buf = s.file.buf ∧ InFlight blocks s'.net ∧
      (ret < 0 ∨ ret = size ∧ s'.net.stored = blocks) := by
  refine exchange_rule
    (I := fun t w => SameWindow s.file t ∧ t.buf = s.file.buf ∧ InFlight blocks w)
    (Q := fun ret t w => SameWindow s.file t ∧ t.buf = s.file.buf ∧ InFlight blocks w ∧
      (ret < 0 ∨ ret = size ∧ w.stored = blocks))
    ⟨?_, ?_, ?_, ?_, ?_⟩ ⟨SameWindow.refl _, rfl, h⟩ hr
  · rintro e t w ⟨hsame, hbuf, hflight⟩ -
    exact ⟨hsame, hbuf, hflight, Or.inl (by omega)⟩
  · rintro e t w w₁ - - hnot
    cases hnot
  · rintro e t w w₁ w₂ ⟨hsame, hbuf, hflight⟩ hsend - hwait
    have hsent := hflight.of_sendto hreq hsend
    have hw : w₂ = e.deliver w₁ := by
      rcases hwait with hwait | hwait
      · exact (congrArg Prod.fst hwait).symm
      · exact (congrArg Prod.fst hwait).symm
    exact ⟨hsame, hbuf, hw ▸ hsent.delivered, Or.inl (by omega)⟩
  · rintro e t w w₁ w₂ ⟨hsame, hbuf, hflight⟩ hsend - hwait
    have hsent := hflight.of_sendto hreq hsend
    have hw : w₂ = e.deliver w₁ := (congrArg Prod.fst hwait).symm
    refine ⟨⟨hsame, hbuf, hw ▸ hsent.delivered⟩, ?_⟩
    intro r n hn
    rw [wrqTimeout_eq_none] at hn
    cases hn
  · rintro e t w w₁ w₂ port bytes ⟨hsame, hbuf, hflight⟩ hsend - hwait
    have hsent := hflight.of_sendto hreq hsend
    obtain ⟨hw, hbytes⟩ := link_packet hwait
    have hflight₂ : InFlight blocks w₂ := hw ▸ hsent.delivered
    obtain ⟨hkeeps, hkeepsBuf, hcase⟩ := wrqPacket_spec size port bytes t
    have hflush : (if (wrqPacket size port bytes t).flush then link.synchnet w₂ else w₂) = w₂ :=
      ite_self w₂
    rw [hflush]
    refine ⟨?_, fun _ => ⟨hsame.trans hkeeps, hkeepsBuf.trans hbuf, hflight₂⟩⟩
    intro n hn
    refine ⟨hsame.trans hkeeps, hkeepsBuf.trans hbuf, hflight₂, ?_⟩
    rcases hcase with (hret | hret) | haccepts
    · rw [hret] at hn
      cases hn
    · rw [hret] at hn
      cases hn
      exact Or.inl (by omega)
    · obtain rfl := Option.some.inj (haccepts.ret.symm.trans hn)
      refine Or.inr ⟨rfl, ?_⟩
      have hopcode := haccepts.opcode
      have hnumber := haccepts.block
      rcases hbytes with ⟨k, hk, rfl⟩ | ⟨code, message, rfl⟩
      · have hack : ackPacket (BitVec.ofNat 16 k) =
            htons ACK ++ htons (BitVec.ofNat 16 k) ++ [] := rfl
        rw [take_ackPacket, hack, ntohs_write.2, hsame.block, hblock] at hnumber
        exact hflight₂.stored_of_acks hk hnumber
      · have hmessage : (htons ERROR ++ htons code ++ message).take PKTSIZE =
            htons ERROR ++ htons code ++ message.take SEGSIZE := rfl
        rw [hmessage, ntohs_write.1] at hopcode
        exact absurd hopcode (by decide)

end Transfer

/-! ## Writing -/

/-- The blocks that were sent so far, and the bytes that wait in `buf`. -/
structure Writing (blocks : List Datagram) (part : Datagram) (t : TftpFile) : Prop where
  mode : t.flags &&& O_ACCMODE = O_WRONLY
  block : t.block = BitVec.ofNat 16 blocks.length
  stop : t.stop = part.length
  room : part.length ≤ SEGSIZE
  bytes : t.buf.Reads 4 part

section Write

variable {blocks : List Datagram} {part data : Datagram} {ret : ℤ} {total nwrite fuel : ℕ}
  {copies : List (ℤ × ℤ)} {s s' : Session Link LinkEvent} {t : TftpFile}
  {r : WriteResult Link LinkEvent}

/-- The packet that is sent with the bytes in `buf`. -/
theorem firstBytes_header {m : Bytes} {block : BitVec 16} (h : m.Reads 4 part) :
    firstBytes (m.write 0 (htons DATA ++ htons block)) (part.length + 4) =
      dataPacket block part := by
  have hreads : (m.write 0 (htons DATA ++ htons block)).Reads 0 (dataPacket block part) := by
    unfold dataPacket
    rw [reads_append]
    refine ⟨reads_write, h.congr ?_⟩
    intro i hi
    exact write_of_outside (Or.inr (Nat.le_add_right _ _))
  rw [reads_iff] at hreads
  apply List.ext_getElem
  · unfold firstBytes
    rw [List.length_map, List.length_range, length_dataPacket]
  · intro i _ hi
    simp only [firstBytes, List.getElem_map, List.getElem_range]
    rw [← hreads i hi, Nat.zero_add]

/-- The block in `buf` is sent: the transfer fails, or the server has stored it. -/
theorem Writing.send (h : Writing blocks part s.file) (hflight : InFlight blocks s.net)
    (hfew : blocks.length + 1 < 65536)
    (hr : sendBlock link s.file.stop s = some (ret, s')) :
    ret < 0 ∨ ret = part.length ∧ s'.net.stored = blocks ++ [part] ∧
      InFlight (blocks ++ [part]) s'.net ∧
      SameWindow { s.file with block := BitVec.ofNat 16 (blocks ++ [part]).length } s'.file := by
  have hblock : s.file.block + 1 = BitVec.ofNat 16 (blocks.length + 1) := by
    rw [h.block, BitVec.ofNat_add]
    rfl
  have hsize : (s.file.stop + 4).toNat = part.length + 4 := by
    rw [h.stop]
    rfl
  have hlen : (blocks ++ [part]).length = blocks.length + 1 := by
    rw [List.length_append, List.length_singleton]
  have hreq : firstBytes (s.file.tftpnxtblk.header DATA s.file.tftpnxtblk.block).buf
      (s.file.stop + 4).toNat = dataPacket (BitVec.ofNat 16 (blocks.length + 1)) part := by
    rw [hsize, ← hblock]
    exact firstBytes_header h.bytes
  unfold sendBlock at hr
  dsimp only at hr
  rw [hreq] at hr
  have hlt : blocks.length < (blocks ++ [part]).length := by omega
  have hlast : dataPacket (BitVec.ofNat 16 (blocks.length + 1)) part =
      dataPacket (BitVec.ofNat 16 (blocks.length + 1)) (blocks ++ [part])[blocks.length] := by
    simp
  have hnext : (s.file.tftpnxtblk.header DATA s.file.tftpnxtblk.block).block =
      BitVec.ofNat 16 (blocks ++ [part]).length := by
    rw [hlen, ← hblock]
    rfl
  have hstores := tftpwrq_stores
    (s := { s with file := s.file.tftpnxtblk.header DATA s.file.tftpnxtblk.block })
    (hflight.extend hfew) (Or.inr ⟨blocks.length, hlt, hlast⟩) hnext hr
  obtain ⟨hsame, -, hflight', hret | ⟨rfl, hstored⟩⟩ := hstores
  · exact Or.inl hret
  · refine Or.inr ⟨h.stop, hstored, hflight', ?_⟩
    rw [hlen, ← hblock]
    exact ⟨hsame.block, hsame.flags, hsame.start, hsame.stop, hsame.foffs⟩

/-- The bytes that one round of the loop of `tftpwrite` copies are those that fit. -/
theorem Writing.copy (h : Writing blocks part t) (n : ℕ) (hn : n ≤ data.length)
    (hroom : part.length + n ≤ SEGSIZE) :
    Writing blocks (part ++ data.take n) { t with
      buf := t.buf.write ((4 : ℤ) + t.stop).toNat (data.take n)
      stop := t.stop + n
      foffs := t.foffs + n } := by
  have hplace : ((4 : ℤ) + t.stop).toNat = 4 + part.length := by
    rw [h.stop]
    omega
  have hlen : (part ++ data.take n).length = part.length + n := by
    rw [List.length_append, List.length_take_of_le hn]
  constructor
  · exact h.mode
  · exact h.block
  · rw [hlen, h.stop]
    rfl
  · rw [hlen]
    exact hroom
  · dsimp only
    rw [hplace, reads_append]
    refine ⟨h.bytes.congr ?_, reads_write⟩
    intro i hi
    exact write_of_outside (Or.inl (by omega))

/-- The loop of `tftpwrite` fails, or all bytes have gone to the server or to `buf`. -/
theorem Writing.writeFrom (h : Writing blocks part s.file) (hflight : InFlight blocks s.net)
    (hfull : ∀ b ∈ blocks, b.length = SEGSIZE) (hpart : part.length < SEGSIZE)
    (htotal : blocks.length * SEGSIZE + part.length + data.length ≤ total)
    (hmax : total < 65535 * SEGSIZE)
    (hr : tftpwriteFrom link nwrite fuel data copies s = some r) :
    r.ret < 0 ∨ ∃ blocks' part', Writing blocks' part' r.session.file ∧
      InFlight blocks' r.session.net ∧ (∀ b ∈ blocks', b.length = SEGSIZE) ∧
      part'.length < SEGSIZE ∧ blocks'.flatten ++ part' = blocks.flatten ++ part ++ data := by
  induction fuel generalizing data copies s blocks part with
  | zero => cases hr
  | succ fuel ih =>
      simp only [tftpwriteFrom] at hr
      by_cases hdata : data.length ≠ 0
      · rw [if_pos hdata] at hr
        obtain ⟨c, hc, hcdata, hcroom, hcall⟩ : ∃ c : ℕ,
            min ((SEGSIZE : ℤ) - s.file.stop) data.length = c ∧ c ≤ data.length ∧
              part.length + c ≤ SEGSIZE ∧ (part.length + c < SEGSIZE → c = data.length) := by
          refine ⟨min (SEGSIZE - part.length) data.length, ?_, ?_, ?_, ?_⟩
          · rw [h.stop]
            omega
          · omega
          · omega
          · omega
        rw [hc, Int.toNat_natCast] at hr
        have hcopy := h.copy c hcdata hcroom
        have hlen : (part ++ data.take c).length = part.length + c := by
          rw [List.length_append, List.length_take_of_le hcdata]
        have hdrop : (data.drop c).length = data.length - c := List.length_drop
        have hbytes : ∀ l : Datagram, l ++ part ++ data =
            l ++ (part ++ data.take c) ++ data.drop c := by
          intro l
          rw [List.append_assoc, List.append_assoc, List.append_assoc, List.take_append_drop]
        split at hr
        · next hstop =>
          have hfilled : part.length + c = SEGSIZE := by
            rw [h.stop] at hstop
            omega
          split at hr
          · cases hr
          · next ret s' hsend =>
            have hfew : blocks.length + 1 < 65536 := by
              unfold SEGSIZE at hmax htotal hfilled
              omega
            rcases hcopy.send (s := { s with file := _ }) hflight hfew hsend with
              hret | ⟨-, -, hflight', hsame⟩
            · rw [if_pos hret] at hr
              cases hr
              exact Or.inl (show (-1 : ℤ) < 0 by decide)
            · split at hr
              · cases hr
                exact Or.inl (show (-1 : ℤ) < 0 by decide)
              · have hempty : Writing (blocks ++ [part ++ data.take c]) []
                    { s'.file with stop := 0 } :=
                  ⟨hsame.flags ▸ h.mode, hsame.block, rfl, Nat.zero_le _, trivial⟩
                have hfull' : ∀ b ∈ blocks ++ [part ++ data.take c], b.length = SEGSIZE := by
                  intro b hb
                  rcases List.mem_append.mp hb with hb | hb
                  · exact hfull b hb
                  · rw [List.mem_singleton.mp hb, hlen, hfilled]
                have hsum : (blocks ++ [part ++ data.take c]).length * SEGSIZE +
                    ([] : Datagram).length + (data.drop c).length ≤ total := by
                  rw [List.length_append, List.length_singleton, Nat.add_mul, List.length_nil,
                    hdrop]
                  omega
                rcases ih (s := { s' with file := { s'.file with stop := 0 } }) hempty hflight'
                  hfull' (by decide) hsum hr with hfail | ⟨bs, p, hw, hf, hl, hp, hall⟩
                · exact Or.inl hfail
                · refine Or.inr ⟨bs, p, hw, hf, hl, hp, ?_⟩
                  rw [hall, hbytes, List.flatten_append, List.append_nil]
                  simp
        · next hstop =>
          have hroom : part.length + c < SEGSIZE := by
            rw [h.stop] at hstop
            omega
          rcases ih (s := { s with file := _ }) hcopy hflight hfull (by rwa [hlen])
            (by rw [hlen, hdrop]; omega) hr with hfail | ⟨bs, p, hw, hf, hl, hp, hall⟩
          · exact Or.inl hfail
          · refine Or.inr ⟨bs, p, hw, hf, hl, hp, ?_⟩
            rw [hall, hbytes]
      · rw [if_neg hdata] at hr
        cases hr
        have hnil : data = [] := List.eq_nil_of_length_eq_zero (not_not.mp hdata)
        refine Or.inr ⟨blocks, part, h, hflight, hfull, hpart, ?_⟩
        rw [hnil, List.append_nil]

end Write

/-! ## Whole uploads -/

/-- The calls `tftpwrite` with the pieces of the data, none of which fails. -/
def tftpwrites {W E : Type} (N : Network W E) :
    List Datagram → Session W E → Option (Session W E)
  | [], s => some s
  | data :: pieces, s =>
    (tftpwrite N data s).bind fun r => if r.ret < 0 then none else tftpwrites N pieces r.session

/-- `tftpopen` has opened the file for writing, on a server that has received nothing yet. -/
def OpenedForWriting (s : Session Link LinkEvent) : Prop :=
  ∃ ready filename flags ackbuf rounds, flags &&& O_ACCMODE = O_WRONLY ∧
    tftpopen link ready filename flags ackbuf rounds ⟨[], false, []⟩ = some (0, s)

section Upload

variable {blocks pieces : List Datagram} {part : Datagram} {total : ℕ}
  {s s' : Session Link LinkEvent} {rets : List ℤ}

theorem length_full_blocks (h : ∀ b ∈ blocks, b.length = SEGSIZE) :
    blocks.flatten.length = blocks.length * SEGSIZE := by
  rw [List.length_flatten, List.map_congr_left h, List.map_const', List.sum_replicate_nat]

theorem Writing.of_open (h : OpenedForWriting s) :
    Writing [] [] s.file ∧ InFlight [] s.net := by
  obtain ⟨ready, filename, flags, ackbuf, rounds, hmode, hopen⟩ := h
  have hnone : InFlight [] ⟨[], false, []⟩ := ⟨by decide, nofun, List.prefix_refl _⟩
  simp only [tftpopen] at hopen
  split at hopen
  · cases hopen
  · split at hopen
    · cases hopen
    · have hread : ¬flags &&& O_ACCMODE = O_RDONLY := by
        rw [hmode]
        decide
      rw [if_neg hread] at hopen
      obtain ⟨⟨size, s'⟩, hwrq, hrest⟩ := Option.bind_eq_some_iff.mp hopen
      obtain ⟨hsame, -, hflight, -⟩ := tftpwrq_stores hnone
        (Or.inl ⟨filename ++ [0] ++ octet ++ [0], by simp [makerequest]⟩) rfl hwrq
      dsimp only at hrest
      split at hrest
      · cases hrest
        exact ⟨⟨hsame.flags ▸ hmode, hsame.block, hsame.stop, Nat.zero_le _, trivial⟩, hflight⟩
      · cases hrest

theorem Writing.writes (h : Writing blocks part s.file) (hflight : InFlight blocks s.net)
    (hfull : ∀ b ∈ blocks, b.length = SEGSIZE) (hpart : part.length < SEGSIZE)
    (htotal : blocks.length * SEGSIZE + part.length + pieces.flatten.length < 65535 * SEGSIZE)
    (hr : tftpwrites link pieces s = some s') :
    ∃ blocks' part', Writing blocks' part' s'.file ∧ InFlight blocks' s'.net ∧
      (∀ b ∈ blocks', b.length = SEGSIZE) ∧ part'.length < SEGSIZE ∧
      blocks'.flatten ++ part' = blocks.flatten ++ part ++ pieces.flatten := by
  induction pieces generalizing s blocks part with
  | nil =>
      cases hr
      exact ⟨blocks, part, h, hflight, hfull, hpart, by simp⟩
  | cons data pieces ih =>
      obtain ⟨r, hwrite, hrest⟩ := Option.bind_eq_some_iff.mp hr
      rw [List.flatten_cons, List.length_append] at htotal
      unfold tftpwrite at hwrite
      rw [if_neg (not_not.mpr h.mode)] at hwrite
      split at hrest
      · cases hrest
      · next hret =>
        rcases h.writeFrom hflight hfull hpart (Nat.le_refl _) (by omega) hwrite with
          hfail | ⟨bs, p, hw, hf, hl, hp, hall⟩
        · omega
        · have hflat := length_full_blocks hl
          have hflat₀ := length_full_blocks hfull
          have hsum := congrArg List.length hall
          simp only [List.length_append] at hsum
          obtain ⟨bs', p', hw', hf', hl', hp', hall'⟩ := ih hw hf hl hp (by omega) hrest
          refine ⟨bs', p', hw', hf', hl', hp', ?_⟩
          rw [hall', hall, List.flatten_cons, List.append_assoc _ data]

/-- If `tftpopen`, all calls of `tftpwrite` and the transfers in `tftpclose` succeed, the
server has stored the bytes that were written as full blocks and one shorter block, and no
packet that is still in flight changes that. -/
theorem upload_delivers (hlen : pieces.flatten.length < 65535 * SEGSIZE)
    {s₀ : Session Link LinkEvent} (hopen : OpenedForWriting s₀)
    (hwrites : tftpwrites link pieces s₀ = some s)
    (hclose : tftpclose link s = some (rets, s')) (hrets : ∀ n ∈ rets, 0 ≤ n) :
    (∃ full last, s'.net.stored = full ++ [last] ∧ (∀ b ∈ full, b.length = SEGSIZE) ∧
        last.length < SEGSIZE ∧ full.flatten ++ last = pieces.flatten) ∧
      ∀ d ∈ s'.net.sent, (s'.net.deliver d).stored = s'.net.stored := by
  obtain ⟨hstart, hnone⟩ := Writing.of_open hopen
  obtain ⟨full, last, hw, hflight, hfull, hlast, hall⟩ := hstart.writes hnone nofun (by decide)
    (by simpa using hlen) hwrites
  have hflat := length_full_blocks hfull
  have hsum := congrArg List.length hall
  simp only [List.length_append, List.flatten_nil, List.length_nil] at hsum
  have hfew : full.length + 1 < 65536 := by
    unfold SEGSIZE at hlen hflat
    omega
  unfold tftpclose at hclose
  rw [if_pos hw.mode] at hclose
  obtain ⟨⟨n, s₁⟩, hsend, hrest⟩ := Option.bind_eq_some_iff.mp hclose
  rcases hw.send hflight hfew hsend with hret | ⟨rfl, hstored, hflight', hsame⟩
  · -- a failed transfer is among the results
    dsimp only at hrest
    rw [if_neg (by omega)] at hrest
    cases hrest
    have := hrets n (List.mem_singleton_self n)
    omega
  · have hstop : ¬((0 : ℤ) ≤ last.length ∧ s₁.file.stop = SEGSIZE) := by
      rintro ⟨-, hstop⟩
      have hsize : s₁.file.stop = s.file.stop := hsame.stop
      rw [hsize, hw.stop] at hstop
      omega
    dsimp only at hrest
    rw [if_neg hstop] at hrest
    cases hrest
    refine ⟨⟨full, last, hstored, hfull, hlast, by simpa using hall⟩, ?_⟩
    intro d hd
    have hafter := (hflight'.deliver hd).stored
    have hgrown : s'.net.stored <+: (s'.net.deliver d).stored := InFlight.stored_deliver
    rw [hstored] at hgrown ⊢
    exact hafter.eq_of_length_le hgrown.length_le

end Upload

/-- The rounds of an upload of one block: the request is sent twice, and the block is lost
once. -/
def shortUploadRounds : List LinkEvent :=
  [⟨false, [], .timesOut⟩, ⟨false, [0, 1], .ack 7000 0⟩, ⟨false, [], .ack 7000 0⟩,
    ⟨false, [3, 3], .ack 7000 1⟩]

/-- Two calls of `tftpwrite` with three bytes. -/
theorem upload_delivers_short :
    ∃ s₀ s rets s', OpenedForWriting s₀ ∧ tftpwrites link [[10, 20], [30]] s₀ = some s ∧
      tftpclose link s = some (rets, s') ∧ s'.net.sent.length = 4 ∧
      ∀ d ∈ s'.net.sent, (s'.net.deliver d).stored = s'.net.stored := by
  obtain ⟨⟨ret, s₀⟩, hopen, hcheck⟩ := Runs.exists_of_any
    (show (tftpopen link true [] O_WRONLY (fun _ => 0) shortUploadRounds ⟨[], false, []⟩).any
      (fun p => p.1 = 0 ∧ (tftpwrites link [[10, 20], [30]] p.2).any fun s =>
        (tftpclose link s).any fun q => q.1.all (0 ≤ ·) ∧ q.2.net.sent.length = 4)
      = true by decide)
  obtain ⟨rfl, hwrites⟩ := of_decide_eq_true hcheck
  obtain ⟨s, hs, hclose⟩ := Runs.exists_of_any hwrites
  obtain ⟨⟨rets, s'⟩, hs', hend⟩ := Runs.exists_of_any hclose
  obtain ⟨hrets, hsent⟩ := of_decide_eq_true hend
  have hstart : OpenedForWriting s₀ :=
    ⟨true, [], O_WRONLY, fun _ => 0, shortUploadRounds, rfl, hopen⟩
  refine ⟨s₀, s, rets, s', hstart, hs, hs', hsent, ?_⟩
  refine (upload_delivers (by decide) hstart hs hs' ?_).2
  intro n hn
  exact of_decide_eq_true (List.all_eq_true.mp hrets n hn)

end LuojiOs
