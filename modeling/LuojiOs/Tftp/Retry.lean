import LuojiOs.Tftp.Upload
import LuojiOs.Tftp.Download

/-!
# Calls after an error

`tftpread` and `tftpwrite` count up `block` before the exchange, and an exchange that fails
does not count it down.  After the last block of a download this does no harm, since nothing
is received any more.  Before it, the next call acknowledges a block that it does not have.
A failed `tftpwrite` leaves its buffer full as well.
-/

namespace LuojiOs

open Tftp Bytes

/-! ## A server that goes from block to block -/

/-- Whether the request of a round reaches the server, and what the client sees then; a block
is given by its distance to the last one that the server has sent. -/
structure ServerTurn where
  arrives : Bool
  event : ServerEvent
  deriving DecidableEq

/-- The last block that the server has sent, after a packet has reached it. -/
def served (file : Datagram) (d : Datagram) (w : ℕ) : ℕ :=
  if d.take 2 = htons RRQ then 1
  else if d = ackPacket (BitVec.ofNat 16 w) ∧ 0 < w ∧ w < fileBlocks file then w + 1
  else w

/-- The server sends a block when the one before was acknowledged.  Any of the last 65535
blocks may arrive, as often as it likes. -/
def turnServer (file : Datagram) : Network ℕ ServerTurn where
  sendto e _ d w :=
    if e.event = .sendFails then none else some (if e.arrives then served file d w else w)
  wait e w := (w, match e.event with
    | .data port behind =>
      if behind < w ∧ behind < 65535 then
        .packet port (dataPacket (BitVec.ofNat 16 (w - behind)) (blockData file (w - behind)))
      else .timesOut
    | .error port code message => .packet port (htons ERROR ++ htons code ++ message)
    | .selectFails => .selectFails
    | .recvFails => .recvFails
    | _ => .timesOut)
  synchnet w := w

section Turns

variable {file req : Datagram} {a b f k nread : ℕ} {t : TftpFile} {w w₁ w₂ : ℕ} {e : ServerTurn}
  {s s' : Session ℕ ServerTurn} {r : ReadResult ℕ ServerTurn} {ret : ℤ}

theorem turnServer_packet {port : BitVec 16} {bytes : Datagram}
    (h : (turnServer file).wait e w = (w₁, .packet port bytes)) :
    w₁ = w ∧ ((∃ behind, behind < w ∧ behind < 65535 ∧
        bytes = dataPacket (BitVec.ofNat 16 (w - behind)) (blockData file (w - behind))) ∨
      ∃ code message, bytes = htons ERROR ++ htons code ++ message) := by
  refine ⟨(congrArg Prod.fst h).symm, ?_⟩
  have hreply := congrArg Prod.snd h
  simp only [turnServer] at hreply
  split at hreply
  · next behind hevent =>
    split at hreply
    · next hnear =>
      cases hreply
      exact Or.inl ⟨behind, hnear.1, hnear.2, rfl⟩
    · cases hreply
  · cases hreply
    exact Or.inr ⟨_, _, rfl⟩
  · cases hreply
  · cases hreply
  · cases hreply

theorem ackPacket_inj {v v' : BitVec 16} (h : ackPacket v = ackPacket v') : v = v' := by
  have hnumber : htons v = htons v' := List.append_cancel_left h
  rw [← ntohs_of_reads (m := Bytes.write (fun _ => 0) 0 (htons v)) (a := 0) reads_write, hnumber]
  exact ntohs_of_reads reads_write

/-- The exchange for the block after `k`. -/
theorem fetch_next : FetchRule (turnServer file) file (ackPacket (BitVec.ofNat 16 k)) (k + 1)
    (fun w => w ≤ fileBlocks file ∧ (w = k ∨ w = k + 1)) (fun w => w = k + 1) where
  sends := by
    rintro e port w w₁ ⟨hle, hw⟩ hsend
    simp only [turnServer] at hsend
    split at hsend
    · cases hsend
    · cases hsend
      have hack : ¬(ackPacket (BitVec.ofNat 16 k)).take 2 = htons RRQ := by
        intro hnot
        exact absurd hnot (show ¬htons ACK = htons RRQ by decide)
      split
      · unfold served
        rw [if_neg hack]
        split
        · next hcurrent =>
          refine ⟨hcurrent.2.2, Or.inr ?_⟩
          rcases hw with rfl | rfl
          · rfl
          · have hnat := congrArg BitVec.toNat (ackPacket_inj hcurrent.1)
            rw [BitVec.toNat_ofNat, BitVec.toNat_ofNat] at hnat
            omega
        · exact ⟨hle, hw⟩
      · exact ⟨hle, hw⟩
  waits := fun _ _ h => h
  keeps := fun _ => rfl
  packet := by
    rintro e w w₁ port bytes ⟨hle, hw⟩ hwait
    obtain ⟨rfl, ⟨behind, hbehind, hnear, rfl⟩ | herror⟩ := turnServer_packet hwait
    · refine Or.inl ⟨w₁ - behind, by omega, by omega, rfl, ?_⟩
      intro hnumber
      have hnat := congrArg BitVec.toNat hnumber
      rw [BitVec.toNat_ofNat, BitVec.toNat_ofNat] at hnat
      omega
    · exact Or.inr herror

/-- The window of a download whose blocks have all arrived in turn; at the end of the file
the number of the block does not matter any more. -/
structure InTurn (file : Datagram) (a b : ℕ) (t : TftpFile) (w : ℕ) : Prop where
  reading : Reading file a b t
  block : t.eof = false → t.block = BitVec.ofNat 16 w
  place : t.eof = false → b = SEGSIZE * w

theorem InTurn.of_ended (block : BitVec 16) (h : Reading file a b t) (heof : t.eof = true) :
    InTurn file a b { t with block := block } w := by
  have hnot : ∀ {p : Prop}, t.eof = false → p := by
    intro p hgoing
    rw [heof] at hgoing
    cases hgoing
  exact ⟨⟨h.mode, h.start, h.stop, h.le, h.stop_le, h.below, h.bytes, h.ended, hnot⟩, hnot, hnot⟩

theorem Fetched.full {k : ℕ} (h : Fetched file k t) (heof : t.eof = false) :
    (blockData file k).length = SEGSIZE := by
  have hle : (blockData file k).length ≤ SEGSIZE := length_blockData_le
  have hnot := h.eof
  rw [heof] at hnot
  have := of_decide_eq_false hnot.symm
  omega

/-- An exchange fails only at the end of the file without harm. -/
theorem turnServer_refills : RefillRule (turnServer file) file (InTurn file)
    (fun t w => t.eof = true → ∃ a b, InTurn file a b t w) where
  reading h := h.reading
  moves h hfoffs := ⟨h.reading.moved hfoffs, h.block, h.place⟩
  refills := by
    intro a b ret s s' h hf hr
    have hle := h.reading.stop_le
    cases heof : s.file.eof with
    | true =>
        obtain ⟨hsame, hret⟩ :=
          tftprrq_ended (s := { s with file := s.file.tftpnxtblk }) heof hr
        have hsame : s'.file = { s.file with block := s.file.block + 1 } := hsame
        rcases hret with rfl | rfl
        · refine Or.inl ⟨by decide, fun _ => ⟨a, b, ?_⟩⟩
          rw [hsame]
          exact InTurn.of_ended _ h.reading heof
        · refine Or.inr ⟨by rw [hsame], b, ?_⟩
          have hend := h.reading.finish heof hsame hf
          have heof' : s'.file.eof = true := (congrArg TftpFile.eof hsame).trans heof
          exact InTurn.of_ended s'.file.block hend heof'
    | false =>
        have hblock := h.block heof
        have hb := h.place heof
        have hnext : s.file.tftpnxtblk.block = BitVec.ofNat 16 (s.net + 1) := by
          rw [BitVec.ofNat_add, ← hblock]
          rfl
        have hbound : s.net ≤ fileBlocks file := by
          unfold fileBlocks SEGSIZE
          unfold SEGSIZE at hb
          omega
        have hreq : htons ACK ++ htons s.file.block = ackPacket (BitVec.ofNat 16 s.net) := by
          rw [hblock]
          rfl
        rw [hreq] at hr
        obtain ⟨hsame, ⟨hret, hnot⟩ | ⟨rfl, hfetched, hnet⟩⟩ := fetch_next.tftprrq
          (s := { s with file := s.file.tftpnxtblk }) ⟨hbound, Or.inl rfl⟩ hnext heof hr
        · refine Or.inl ⟨hret, fun hend => ?_⟩
          rw [hnot] at hend
          cases hend
        · refine Or.inr ⟨hsame.foffs, _, h.reading.next hb (hnext ▸ hsame) hfetched hf, ?_, ?_⟩
          · intro _
            rw [hnet]
            exact hsame.block.trans hnext
          · intro hgoing
            rw [hnet, hfetched.full hgoing, hb, Nat.mul_add, Nat.mul_one]

/-- `tftpopen` has opened the file for reading, on a server that has sent nothing before. -/
def OpenedInTurn (file : Datagram) (s : Session ℕ ServerTurn) : Prop :=
  ∃ ready filename flags ackbuf rounds, flags &&& O_ACCMODE = O_RDONLY ∧
    tftpopen (turnServer file) ready filename flags ackbuf rounds 0 = some (0, s)

theorem fetch_first {filename : Datagram} :
    FetchRule (turnServer file) file (makerequest RRQ filename octet) 1
      (fun w => w = 0 ∨ w = 1) (fun w => w = 1) where
  sends := by
    rintro e port w w₁ hw hsend
    simp only [turnServer] at hsend
    split at hsend
    · cases hsend
    · cases hsend
      split
      · exact Or.inr (if_pos rfl)
      · exact hw
  waits := fun _ _ h => h
  keeps := fun _ => rfl
  packet := by
    rintro e w w₁ port bytes hw hwait
    obtain ⟨rfl, ⟨behind, hbehind, hnear, rfl⟩ | herror⟩ := turnServer_packet hwait
    · obtain rfl : w₁ = 1 := by omega
      obtain rfl : behind = 0 := by omega
      exact Or.inl ⟨1, Nat.le_refl 1, Nat.le_add_left 1 _, rfl, fun _ => ⟨rfl, rfl⟩⟩
    · exact Or.inr herror

theorem InTurn.of_open (h : OpenedInTurn file s) : ∃ b, InTurn file 0 b s.file s.net := by
  obtain ⟨ready, filename, flags, ackbuf, rounds, hmode, hopen⟩ := h
  simp only [tftpopen] at hopen
  split at hopen
  · cases hopen
  · split at hopen
    · cases hopen
    · obtain ⟨⟨size, s'⟩, hrrq, hrest⟩ := Option.bind_eq_some_iff.mp hopen
      obtain ⟨hsame, ⟨hsize, -⟩ | ⟨rfl, hfetched, hnet⟩⟩ :=
        fetch_first.tftprrq (Or.inl rfl) rfl rfl hrrq
      · dsimp only at hrest
        rw [if_pos hsize] at hrest
        cases hrest
      · dsimp only at hrest
        rw [if_neg (Int.not_lt.mpr (Int.natCast_nonneg _))] at hrest
        cases hrest
        refine ⟨_, Reading.first hmode hsame hfetched, ?_, ?_⟩
        · intro _
          rw [hnet]
          exact hsame.block
        · intro hgoing
          rw [hnet, hfetched.full hgoing, Nat.mul_one]

/-- A call of `tftpread`, whatever its result, or of `tftplseek`. -/
def ReadCall.stepOn {W E : Type} (N : Network W E) (s : Session W E) :
    ReadCall → Option (Session W E)
  | read nread => (tftpread N nread s).map ReadResult.session
  | seek offs how => some { s with file := (tftplseek offs how s.file).2 }

/-- An exchange of the call fails only when the last block has arrived. -/
def ReadCall.FailsOnlyAtEnd {W E : Type} (N : Network W E) (s : Session W E) : ReadCall → Prop
  | read nread => ∀ r, tftpread N nread s = some r → r.ret < 0 → r.session.file.eof = true
  | seek _ _ => True

theorem tftplseek_file (offs : ℤ) (how : Whence) (t : TftpFile) :
    ∃ foffs, (tftplseek offs how t).2 = { t with foffs := foffs } := by
  unfold tftplseek
  dsimp only
  split
  · split
    · split
      · exact ⟨t.foffs, rfl⟩
      · exact ⟨t.foffs, rfl⟩
    · split
      · exact ⟨t.foffs, rfl⟩
      · exact ⟨offs, rfl⟩
  · split
    · split
      · exact ⟨t.foffs, rfl⟩
      · exact ⟨t.foffs, rfl⟩
    · split
      · exact ⟨t.foffs, rfl⟩
      · exact ⟨t.foffs + offs, rfl⟩
  · exact ⟨t.foffs, rfl⟩

theorem inTurn_of_reach
    (h : Runs.Reach (ReadCall.stepOn (turnServer file))
      (ReadCall.FailsOnlyAtEnd (turnServer file)) (OpenedInTurn file) s) :
    ∃ a b, InTurn file a b s.file s.net := by
  refine h.invariant (P := fun s => ∃ a b, InTurn file a b s.file s.net) ?_ ?_
  · intro s hopen
    exact ⟨0, InTurn.of_open hopen⟩
  · rintro s c s' ⟨a, b, hs⟩ hguard hstep
    cases c with
    | read nread =>
        obtain ⟨r, hr, rfl⟩ := Option.map_eq_some_iff.mp hstep
        have hnonneg : s.file.foffs = ((s.file.foffs.toNat : ℕ) : ℤ) := by
          have := hs.reading.below
          omega
        rcases turnServer_refills.read hs hnonneg hr with ⟨hret, hlost⟩ | ⟨-, -, -, hwindow⟩
        · exact hlost (hguard r hr (by omega))
        · exact hwindow
    | seek offs how =>
        cases hstep
        have hseek := hs.reading.seek offs how
        obtain ⟨foffs, hfoffs⟩ := tftplseek_file offs how s.file
        dsimp only
        rw [hfoffs] at hseek ⊢
        exact ⟨a, b, hseek, hs.block, hs.place⟩

end Turns

/-! ## Reading again at the end of the file -/

section Again

variable {W E : Type} {N : Network W E} {file req : Datagram} {a b nread : ℕ} {e : E}
  {rest : List E} {w₁ : W} {s : Session W E}

theorem tftprrq_at_end (heof : s.file.eof = true) (hrounds : s.rounds = e :: rest)
    (hsend : N.sendto e s.file.port req s.net = some w₁) :
    tftprrq N req s = some (0, ⟨rest, w₁, s.file⟩) := by
  unfold tftprrq
  rw [hrounds]
  simp only [exchange, hsend, heof, if_true]

theorem tftpreadFrom_stops {nb fuel : ℕ} {out : Datagram}
    (hstop : ¬(nb ≠ 0 ∧ s.file.start < s.file.stop)) :
    tftpreadFrom N nread (fuel + 1) nb out s = some ⟨nread - nb, out, s⟩ := by
  simp only [tftpreadFrom]
  rw [if_neg hstop]

/-- At the end of the file a read needs one packet to be sent, and succeeds. -/
theorem Reading.again (h : Reading file a b s.file) (heof : s.file.eof = true)
    (hrounds : s.rounds = e :: rest) (hsends : ∀ req, ∃ w₁, N.sendto e s.file.port req s.net =
      some w₁) : ∃ r, tftpread N nread s = some r ∧ 0 ≤ r.ret := by
  unfold tftpread
  rw [if_neg (not_not.mpr h.mode), hrounds]
  by_cases hgo : nread ≠ 0 ∧ s.file.start < s.file.stop
  · have hcount : s.file.available nread ≤ nread := by
      unfold TftpFile.available
      split
      · exact Nat.min_le_right _ _
      · exact Nat.zero_le _
    rw [tftpreadFrom]
    dsimp only
    rw [if_pos hgo]
    split
    · let t : TftpFile := { s.file with foffs := s.file.foffs + s.file.available nread }
      obtain ⟨w₁, hsend⟩ := hsends (htons ACK ++ htons s.file.block)
      have hrrq := tftprrq_at_end (s := { s with file := t.tftpnxtblk }) heof hrounds hsend
      have hempty : ∀ m : ℕ, ¬(m ≠ 0 ∧ t.stop < t.stop + (0 : ℤ)) := by
        intro m hnot
        have := hnot.2
        omega
      rw [hrrq]
      dsimp only
      rw [if_neg (Int.lt_irrefl 0), tftpreadFrom_stops (hempty _)]
      exact ⟨_, rfl, by dsimp only; omega⟩
    · next hnot =>
      have hbelow := h.below
      have hstart := h.start
      have hall : nread - s.file.available nread = 0 := by
        unfold TftpFile.available at hnot ⊢
        split
        · next hin =>
          rw [if_pos hin] at hnot
          omega
        · next hout =>
          rw [if_neg hout] at hnot
          omega
      rw [hall, tftpreadFrom_stops (fun hmore => hmore.1 rfl)]
      exact ⟨_, rfl, by dsimp only; omega⟩
  · rw [tftpreadFrom_stops hgo]
    exact ⟨_, rfl, by simp⟩

end Again

/-! ## Copies into the data area -/

/-- The place and the count of a `memcpy` of `tftpwrite`: it makes progress and stays in the
data area. -/
def InDataArea (c : ℤ × ℤ) : Prop := 0 < c.2 ∧ 0 ≤ c.1 ∧ c.1 + c.2 ≤ SEGSIZE

instance (c : ℤ × ℤ) : Decidable (InDataArea c) := inferInstanceAs (Decidable (_ ∧ _ ∧ _))

/-- There is room for more data in the buffer of a file that is open for writing. -/
structure Filling (t : TftpFile) : Prop where
  mode : t.flags &&& O_ACCMODE = O_WRONLY
  nonneg : 0 ≤ t.stop
  room : t.stop < SEGSIZE

section Copies

variable {W E : Type} {N : Network W E} {req data : Datagram} {size ret : ℤ} {nwrite fuel : ℕ}
  {copies : List (ℤ × ℤ)} {s s' : Session W E} {r : WriteResult W E}

theorem tftpwrq_keeps (h : tftpwrq N req size s = some (ret, s')) :
    SameWindow s.file s'.file := by
  refine exchange_rule (I := fun t _ => SameWindow s.file t)
    (Q := fun _ t _ => SameWindow s.file t) ⟨?_, ?_, ?_, ?_, ?_⟩ (SameWindow.refl _) h
  · intro e t w hsame _
    exact hsame
  · intro e t w w₁ hsame _ _
    exact hsame
  · intro e t w w₁ w₂ hsame _ _ _
    exact hsame
  · intro e t w w₁ w₂ hsame _ _ _
    exact ⟨hsame, fun _ _ _ => hsame⟩
  · intro e t w w₁ w₂ port bytes hsame _ _ _
    have hkeeps := hsame.trans (wrqPacket_spec size port bytes t).1
    exact ⟨fun _ _ => hkeeps, fun _ => hkeeps⟩

theorem sendBlock_keeps (h : sendBlock N size s = some (ret, s')) :
    s'.file.flags = s.file.flags := (tftpwrq_keeps h).flags

/-- The loop of `tftpwrite` fails, or leaves room in the buffer; its copies stay inside in
both cases. -/
theorem Filling.writeFrom (h : Filling s.file) (hcopies : ∀ c ∈ copies, InDataArea c)
    (hr : tftpwriteFrom N nwrite fuel data copies s = some r) :
    (∀ c ∈ r.copies, InDataArea c) ∧ (r.ret = -1 ∨ Filling r.session.file) := by
  induction fuel generalizing data copies s with
  | zero => cases hr
  | succ fuel ih =>
      simp only [tftpwriteFrom] at hr
      by_cases hdata : data.length ≠ 0
      · rw [if_pos hdata] at hr
        generalize hn : min ((SEGSIZE : ℤ) - s.file.stop) data.length = n at hr
        have hnonneg := h.nonneg
        have hroom := h.room
        have hcopy : InDataArea (s.file.stop, n) := by
          refine ⟨?_, hnonneg, ?_⟩
          · dsimp only
            omega
          · dsimp only
            omega
        have hall : ∀ c ∈ copies ++ [(s.file.stop, n)], InDataArea c := by
          intro c hc
          rcases List.mem_append.mp hc with hc | hc
          · exact hcopies c hc
          · rw [List.mem_singleton.mp hc]
            exact hcopy
        split at hr
        · split at hr
          · cases hr
          · next ret s' hsend =>
            have hmode : s'.file.flags &&& O_ACCMODE = O_WRONLY :=
              (sendBlock_keeps hsend).symm ▸ h.mode
            split at hr
            · cases hr
              exact ⟨hall, Or.inl rfl⟩
            · exact ih (s := { s' with file := { s'.file with stop := 0 } })
                ⟨hmode, Int.le_refl 0, Int.natCast_pos.mpr (by decide)⟩ hall hr
        · next hstop =>
          have hplace := hcopy.2.2
          dsimp only at hplace hstop
          exact ih (s := { s with file := { s.file with
            buf := s.file.buf.write ((4 : ℤ) + s.file.stop).toNat (data.take n.toNat)
            stop := s.file.stop + n
            foffs := s.file.foffs + n } })
            ⟨h.mode, by have := hcopy.1; dsimp only at this ⊢; omega, by dsimp only; omega⟩ hall hr
      · rw [if_neg hdata] at hr
        cases hr
        exact ⟨hcopies, Or.inr h⟩

end Copies

/-- The calls on a file that is open for writing. -/
inductive WriteCall where
  | write (data : Datagram)
  | seek (offs : ℤ) (how : Whence)

def WriteCall.stepOn {W E : Type} (N : Network W E) (s : Session W E) :
    WriteCall → Option (Session W E)
  | write data => (tftpwrite N data s).map WriteResult.session
  | seek offs how => some { s with file := (tftplseek offs how s.file).2 }

def WriteCall.Succeeds {W E : Type} (N : Network W E) (s : Session W E) : WriteCall → Prop
  | write data => ∀ r, tftpwrite N data s = some r → 0 ≤ r.ret
  | seek _ _ => True

/-- `tftpopen` has opened the file for writing. -/
def OpenedToWrite {W E : Type} (N : Network W E) (s : Session W E) : Prop :=
  ∃ ready filename flags ackbuf rounds w, flags &&& O_ACCMODE = O_WRONLY ∧
    tftpopen N ready filename flags ackbuf rounds w = some (0, s)

section Runs

variable {W E : Type} {N : Network W E} {data : Datagram} {s : Session W E}
  {r : WriteResult W E}

theorem Filling.of_open (h : OpenedToWrite N s) : Filling s.file := by
  obtain ⟨ready, filename, flags, ackbuf, rounds, w, hmode, hopen⟩ := h
  simp only [tftpopen] at hopen
  split at hopen
  · cases hopen
  · split at hopen
    · cases hopen
    · have hread : ¬flags &&& O_ACCMODE = O_RDONLY := by
        rw [hmode]
        decide
      rw [if_neg hread] at hopen
      obtain ⟨⟨size, s'⟩, hwrq, hrest⟩ := Option.bind_eq_some_iff.mp hopen
      have hsame := tftpwrq_keeps hwrq
      dsimp only at hrest
      split at hrest
      · cases hrest
        refine ⟨hsame.flags ▸ hmode, ?_, ?_⟩
        · rw [hsame.stop]
        · rw [hsame.stop]
          exact Int.natCast_pos.mpr (by decide)
      · cases hrest

theorem Filling.write (h : Filling s.file) (hr : tftpwrite N data s = some r) :
    (∀ c ∈ r.copies, InDataArea c) ∧ (r.ret = -1 ∨ Filling r.session.file) := by
  unfold tftpwrite at hr
  rw [if_neg (not_not.mpr h.mode)] at hr
  exact h.writeFrom (List.forall_mem_nil _) hr

theorem filling_of_reach
    (h : Runs.Reach (WriteCall.stepOn N) (WriteCall.Succeeds N) (OpenedToWrite N) s) :
    Filling s.file := by
  refine h.invariant (P := fun s => Filling s.file) ?_ ?_
  · intro s hopen
    exact Filling.of_open hopen
  · intro s c s' hs hguard hstep
    cases c with
    | write data =>
        obtain ⟨r, hr, rfl⟩ := Option.map_eq_some_iff.mp hstep
        have hret := hguard r hr
        rcases (hs.write hr).2 with hfail | hfilling
        · omega
        · exact hfilling
    | seek offs how =>
        cases hstep
        obtain ⟨foffs, hfoffs⟩ := tftplseek_file offs how s.file
        dsimp only
        rw [hfoffs]
        exact ⟨hs.mode, hs.nonneg, hs.room⟩

end Runs

/-! ## Calls that go on -/

/-- The acknowledgement of the only block cannot be sent at first. -/
def failingAtEndRounds : List ServerTurn :=
  [⟨true, .data 7000 0⟩, ⟨false, .sendFails⟩, ⟨true, .timesOut⟩]

/-- Two blocks of zeros and one more byte. -/
def threeBlocks : Datagram := List.replicate 1024 0 ++ [7]

/-- The second block is sent, and `select` fails. -/
def skippingRounds : List ServerTurn :=
  [⟨true, .data 7000 0⟩, ⟨true, .selectFails⟩, ⟨true, .data 7000 0⟩, ⟨true, .timesOut⟩]

/-- The block is stored, and `select` fails. -/
def repeatingRounds : List LinkEvent :=
  [⟨false, [0], .ack 7000 0⟩, ⟨false, [1], .selectFails⟩, ⟨false, [2], .ack 7000 2⟩]

end LuojiOs
