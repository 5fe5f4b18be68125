import LuojiOs.Tftp.Retry

/-!
# The acknowledgements of a download

The packets that the client sends are recorded beside the network.  A download sends its
request, then the acknowledgement of the first block, of the second one, and so on, each as
often as a round fails.  The acknowledgement of a block is sent when its last byte has been
read.  An empty last block has no such byte: it is never acknowledged.
-/

namespace LuojiOs

open Tftp Bytes

/-! ## Recording what is sent -/

/-- The network with the list of all packets that were handed to it. -/
def recorded {W E : Type} (N : Network W E) : Network (W × List Datagram) E where
  sendto e port d w := (N.sendto e port d w.1).map fun w₁ => (w₁, w.2 ++ [d])
  wait e w := (((N.wait e w.1).1, w.2), (N.wait e w.1).2)
  synchnet w := (N.synchnet w.1, w.2)

/-- The acknowledgements of the first `n` blocks, in turn. -/
def acksUpTo (n : ℕ) : List Datagram :=
  (List.range n).map fun k => ackPacket (BitVec.ofNat 16 (k + 1))

/-- The client has sent its request and then the acknowledgements of the blocks 1 to `m`,
each one or more times. -/
inductive AckLog (first : Datagram) : ℕ → List Datagram → Prop
  | opened {i : ℕ} (hi : 0 < i) : AckLog first 0 (List.replicate i first)
  | acked {m i : ℕ} {log : List Datagram} (h : AckLog first m log) (hi : 0 < i) :
      AckLog first (m + 1) (log ++ List.replicate i (ackPacket (BitVec.ofNat 16 (m + 1))))

section Log

variable {first : Datagram} {m n i : ℕ} {log : List Datagram} {x : Datagram}

theorem acksUpTo_succ :
    acksUpTo (n + 1) = acksUpTo n ++ [ackPacket (BitVec.ofNat 16 (n + 1))] := by
  unfold acksUpTo
  rw [List.range_succ, List.map_append, List.map_singleton]

theorem AckLog.contains (h : AckLog first m log) : (acksUpTo m).Sublist log := by
  induction h with
  | opened hi => exact List.nil_sublist _
  | @acked m i log h hi ih =>
      rw [acksUpTo_succ]
      apply ih.append
      rw [List.singleton_sublist, List.mem_replicate]
      exact ⟨Nat.pos_iff_ne_zero.mp hi, rfl⟩

/-- Neighbouring blocks have different numbers. -/
theorem ackPacket_succ_ne (n : ℕ) :
    ackPacket (BitVec.ofNat 16 (n + 1)) ≠ ackPacket (BitVec.ofNat 16 n) := by
  intro h
  have hnat := congrArg BitVec.toNat (ackPacket_inj h)
  rw [BitVec.toNat_ofNat, BitVec.toNat_ofNat] at hnat
  omega

/-- Repetitions of one packet make room for one more acknowledgement at most. -/
theorem acksUpTo_append_replicate
    (h : (acksUpTo n).Sublist (log ++ List.replicate i x))
    (hlog : ∀ k, (acksUpTo k).Sublist log → k ≤ m) : n ≤ m + 1 := by
  obtain ⟨l₁, l₂, hsplit, hl₁, hl₂⟩ := List.sublist_append_iff.mp h
  obtain ⟨j, -, rfl⟩ := List.sublist_replicate_iff.mp hl₂
  cases j with
  | zero =>
      rw [List.replicate_zero, List.append_nil] at hsplit
      have := hlog n (hsplit ▸ hl₁)
      omega
  | succ j =>
      cases n with
      | zero => exact Nat.zero_le _
      | succ n =>
          rw [acksUpTo_succ, List.replicate_succ', ← List.append_assoc] at hsplit
          obtain ⟨hinit, hlast⟩ := List.append_inj' hsplit rfl
          cases j with
          | zero =>
              rw [List.replicate_zero, List.append_nil] at hinit
              exact Nat.succ_le_succ (hlog n (hinit ▸ hl₁))
          | succ j =>
              cases n with
              | zero => exact Nat.succ_le_succ (Nat.zero_le _)
              | succ n =>
                  -- the packet would be the acknowledgement of two neighbouring blocks
                  rw [acksUpTo_succ, List.replicate_succ', ← List.append_assoc] at hinit
                  have hbefore := (List.append_inj' hinit rfl).2
                  have hsame := hlast.trans hbefore.symm
                  exact absurd (List.singleton_inj.mp hsame) (ackPacket_succ_ne (n + 1))

theorem AckLog.bounded (h : AckLog first m log) (hfirst : ∀ v, first ≠ ackPacket v)
    (hsub : (acksUpTo n).Sublist log) : n ≤ m := by
  induction h generalizing n with
  | @opened i hi =>
      cases n with
      | zero => exact Nat.le_refl 0
      | succ n =>
          have hmem : ackPacket (BitVec.ofNat 16 (n + 1)) ∈ List.replicate i first := by
            apply hsub.subset
            rw [acksUpTo_succ]
            exact List.mem_append_right _ (List.mem_singleton.mpr rfl)
          exact absurd (List.eq_of_mem_replicate hmem).symm (hfirst _)
  | acked h hi ih => exact acksUpTo_append_replicate hsub fun k hk => ih hk

/-- Which acknowledgements have been sent can be read off the log. -/
theorem AckLog.acksUpTo_iff (h : AckLog first m log) (hfirst : ∀ v, first ≠ ackPacket v) :
    (acksUpTo n).Sublist log ↔ n ≤ m := by
  constructor
  · exact h.bounded hfirst
  · intro hle
    have hprefix : (acksUpTo n).Sublist (acksUpTo m) := by
      unfold acksUpTo
      exact (List.range_sublist.mpr hle).map _
    exact hprefix.trans h.contains

end Log

/-! ## One exchange -/

section Exchange

variable {W E : Type} {N : Network W E} {file req : Datagram} {k : ℕ} {P Q : W → Prop} {ret : ℤ}
  {s s' : Session (W × List Datagram) E}

/-- The recording does not matter to the network. -/
theorem FetchRule.recorded (h : FetchRule N file req k P Q) :
    FetchRule (recorded N) file req k (fun w => P w.1) (fun w => Q w.1) where
  sends := by
    intro e port w w₁ hw hsend
    obtain ⟨w₂, hsent, rfl⟩ := Option.map_eq_some_iff.mp hsend
    exact h.sends e port w.1 w₂ hw hsent
  waits e w hw := h.waits e w.1 hw
  keeps w := Prod.ext (h.keeps w.1) rfl
  packet := by
    intro e w w₁ port bytes hw hwait
    obtain ⟨hw₁, hreply⟩ := Prod.mk.inj hwait
    obtain rfl := hw₁
    exact h.packet e w.1 _ port bytes hw (Prod.ext rfl hreply)

/-- An exchange sends its request, more than once if a round fails, and nothing else. -/
theorem tftprrq_sends (h : tftprrq (recorded N) req s = some (ret, s')) :
    ∃ i, s'.net.2 = s.net.2 ++ List.replicate i req ∧ (0 ≤ ret → 0 < i) := by
  have hmore : ∀ {log : List Datagram} {i : ℕ}, log = s.net.2 ++ List.replicate i req →
      log ++ [req] = s.net.2 ++ List.replicate (i + 1) req := by
    rintro log i rfl
    rw [List.append_assoc, List.replicate_succ']
  refine exchange_rule
    (I := fun _ w => ∃ i, w.2 = s.net.2 ++ List.replicate i req)
    (Q := fun ret _ w => ∃ i, w.2 = s.net.2 ++ List.replicate i req ∧ (0 ≤ ret → 0 < i))
    ⟨?_, ?_, ?_, ?_, ?_⟩ ⟨0, (List.append_nil _).symm⟩ h
  · rintro e t w ⟨i, hi⟩ -
    exact ⟨i, hi, by omega⟩
  · rintro e t w w₁ ⟨i, hi⟩ hsend -
    obtain ⟨w₂, -, rfl⟩ := Option.map_eq_some_iff.mp hsend
    exact ⟨i + 1, hmore hi, fun _ => Nat.succ_pos i⟩
  · rintro e t w w₁ w₂ ⟨i, hi⟩ hsend - hwait
    obtain ⟨w₃, -, rfl⟩ := Option.map_eq_some_iff.mp hsend
    have hlog : w₂.2 = w.2 ++ [req] := by
      rcases hwait with hwait | hwait
      · exact (congrArg (fun p => p.1.2) hwait).symm
      · exact (congrArg (fun p => p.1.2) hwait).symm
    exact ⟨i + 1, hlog.trans (hmore hi), fun _ => Nat.succ_pos i⟩
  · rintro e t w w₁ w₂ ⟨i, hi⟩ hsend - hwait
    obtain ⟨w₃, -, rfl⟩ := Option.map_eq_some_iff.mp hsend
    have hlog : w₂.2 = w.2 ++ [req] := (congrArg (fun p => p.1.2) hwait).symm
    exact ⟨⟨i + 1, hlog.trans (hmore hi)⟩,
      fun _ _ _ => ⟨i + 1, hlog.trans (hmore hi), fun _ => Nat.succ_pos i⟩⟩
  · rintro e t w w₁ w₂ port bytes ⟨i, hi⟩ hsend - hwait
    obtain ⟨w₃, -, rfl⟩ := Option.map_eq_some_iff.mp hsend
    have hlog : w₂.2 = w.2 ++ [req] := (congrArg (fun p => p.1.2) hwait).symm
    have hlog' : (if (rrqPacket port bytes t).flush then (LuojiOs.recorded N).synchnet w₂
        else w₂).2 = w.2 ++ [req] := by
      split
      · exact hlog
      · exact hlog
    exact ⟨fun _ _ => ⟨i + 1, hlog'.trans (hmore hi), fun _ => Nat.succ_pos i⟩,
      fun _ => ⟨i + 1, hlog'.trans (hmore hi)⟩⟩

end Exchange

/-! ## The loop of `tftpread` -/

section Loop

variable {W E : Type} {N : Network W E} {nb nread fuel : ℕ} {out : Datagram}
  {s : Session W E} {r : ReadResult W E}

/-- What the moves of `foffs` and the exchanges keep, a read keeps unless it fails.  A read
stops when it has all that it wants, or when the window is empty. -/
theorem tftpreadFrom_keeps {I : TftpFile → W → Prop}
    (hmove : ∀ t w (n : ℕ), I t w → I { t with foffs := t.foffs + n } w)
    (hrefill : ∀ (s s' : Session W E) (ret : ℤ), I s.file s.net → s.file.start < s.file.stop →
      s.file.stop ≤ s.file.foffs →
      tftprrq N (htons ACK ++ htons s.file.block) { s with file := s.file.tftpnxtblk } =
        some (ret, s') → 0 ≤ ret →
      I { s'.file with start := s'.file.stop, stop := s'.file.stop + ret } s'.net)
    (hI : I s.file s.net) (hr : tftpreadFrom N nread fuel nb out s = some r) :
    r.ret < 0 ∨ I r.session.file r.session.net ∧ ∃ left ≤ nb, r.ret = nread - left ∧
      (left = 0 ∨ r.session.file.stop ≤ r.session.file.start) := by
  induction fuel generalizing nb out s with
  | zero => cases hr
  | succ fuel ih =>
      simp only [tftpreadFrom] at hr
      by_cases hgo : nb ≠ 0 ∧ s.file.start < s.file.stop
      · rw [if_pos hgo] at hr
        have hmoved := hmove s.file s.net (s.file.available nb) hI
        have hrest : ∀ {u : Session W E} {out' : Datagram}, I u.file u.net →
            tftpreadFrom N nread fuel (nb - s.file.available nb) out' u = some r →
            r.ret < 0 ∨ I r.session.file r.session.net ∧ ∃ left ≤ nb, r.ret = nread - left ∧
              (left = 0 ∨ r.session.file.stop ≤ r.session.file.start) := by
          intro u out' hu hr'
          rcases ih hu hr' with hfail | ⟨hkept, left, hleft, hrest⟩
          · exact Or.inl hfail
          · exact Or.inr ⟨hkept, left, by omega, hrest⟩
        split at hr
        · next hdrained =>
          split at hr
          · cases hr
          · next ret s' hrrq =>
            split at hr
            · cases hr
              exact Or.inl (show (-1 : ℤ) < 0 by decide)
            · next hret =>
              refine hrest (u := { s' with file := { s'.file with
                start := s'.file.stop, stop := s'.file.stop + ret } }) ?_ hr
              exact hrefill { s with file := { s.file with
                foffs := s.file.foffs + s.file.available nb } } s' ret hmoved hgo.2 hdrained hrrq
                (Int.not_lt.mp hret)
        · exact hrest (u := { s with file := { s.file with
            foffs := s.file.foffs + s.file.available nb } }) hmoved hr
      · rw [if_neg hgo] at hr
        cases hr
        refine Or.inr ⟨hI, nb, Nat.le_refl nb, rfl, ?_⟩
        by_cases hnb : nb = 0
        · exact Or.inl hnb
        · exact Or.inr (Int.not_lt.mp fun hlt => hgo ⟨hnb, hlt⟩)

end Loop

/-! ## The window and the log -/

/-- The window of a download, and the acknowledgements of all blocks that begin before it. -/
structure InStep (file first : Datagram) (a b : ℕ) (t : TftpFile) (w : ℕ × List Datagram) :
    Prop where
  inTurn : InTurn file a b t w.1
  acks : AckLog first ((a + (SEGSIZE - 1)) / SEGSIZE) w.2
  /-- A window that is not empty is one block. -/
  window : a < b → a % SEGSIZE = 0 ∧ b ≤ a + SEGSIZE ∧
    t.block = BitVec.ofNat 16 (a / SEGSIZE + 1)

section Step

variable {file first : Datagram} {a b : ℕ} {t : TftpFile} {w : ℕ × List Datagram} {ret : ℤ}
  {s s' : Session (ℕ × List Datagram) ServerTurn}

/-- The blocks that begin before the window, where the window begins with a block. -/
theorem blocks_before (hal : a % SEGSIZE = 0) : (a + (SEGSIZE - 1)) / SEGSIZE = a / SEGSIZE := by
  unfold SEGSIZE at *
  omega

theorem blocks_before_succ (hal : a % SEGSIZE = 0) (hlt : a < b) (hone : b ≤ a + SEGSIZE) :
    (b + (SEGSIZE - 1)) / SEGSIZE = (a + (SEGSIZE - 1)) / SEGSIZE + 1 := by
  unfold SEGSIZE at *
  omega

theorem InStep.moved {foffs : ℤ} (h : InStep file first a b t w) (hfoffs : (a : ℤ) ≤ foffs) :
    InStep file first a b { t with foffs := foffs } w :=
  ⟨⟨h.inTurn.reading.moved hfoffs, h.inTurn.block, h.inTurn.place⟩, h.acks, h.window⟩

/-- The block of the window is acknowledged, and the next one is fetched. -/
theorem InStep.refill (h : InStep file first a b s.file s.net) (hlt : a < b)
    (hf : (b : ℤ) ≤ s.file.foffs)
    (hr : tftprrq (recorded (turnServer file)) (htons ACK ++ htons s.file.block)
      { s with file := s.file.tftpnxtblk } = some (ret, s')) (hret : 0 ≤ ret) :
    ∃ b', InStep file first b b'
      { s'.file with start := s'.file.stop, stop := s'.file.stop + ret } s'.net := by
  obtain ⟨hal, hone, hblock⟩ := h.window hlt
  obtain ⟨i, hlog, hi⟩ := tftprrq_sends hr
  have hreq : htons ACK ++ htons s.file.block =
      ackPacket (BitVec.ofNat 16 ((a + (SEGSIZE - 1)) / SEGSIZE + 1)) := by
    rw [hblock, blocks_before hal]
    rfl
  have hacks : AckLog first ((b + (SEGSIZE - 1)) / SEGSIZE) s'.net.2 := by
    rw [hlog, hreq, blocks_before_succ hal hlt hone]
    exact h.acks.acked (hi hret)
  cases heof : s.file.eof with
  | true =>
      obtain ⟨hsame, rfl | rfl⟩ :=
        tftprrq_ended (s := { s with file := s.file.tftpnxtblk }) heof hr
      · omega
      · have hsame : s'.file = { s.file with block := s.file.block + 1 } := hsame
        have hend := h.inTurn.reading.finish heof hsame hf
        have heof' : s'.file.eof = true := (congrArg TftpFile.eof hsame).trans heof
        refine ⟨b, InTurn.of_ended s'.file.block hend heof', hacks, ?_⟩
        intro hnot
        exact absurd hnot (Nat.lt_irrefl b)
  | false =>
      have hnumber := h.inTurn.block heof
      have hb := h.inTurn.place heof
      have hle := h.inTurn.reading.stop_le
      have hnext : s.file.tftpnxtblk.block = BitVec.ofNat 16 (s.net.1 + 1) := by
        rw [BitVec.ofNat_add, ← hnumber]
        rfl
      have hbound : s.net.1 ≤ fileBlocks file := by
        unfold SEGSIZE at hb
        unfold fileBlocks SEGSIZE
        omega
      rw [hnumber] at hr
      obtain ⟨hsame, ⟨hfail, -⟩ | ⟨rfl, hfetched, hnet⟩⟩ := fetch_next.recorded.tftprrq
        (s := { s with file := s.file.tftpnxtblk }) ⟨hbound, Or.inl rfl⟩ hnext heof hr
      · omega
      · have hsize : (blockData file (s.net.1 + 1)).length ≤ SEGSIZE := length_blockData_le
        refine ⟨_, ⟨h.inTurn.reading.next hb (hnext ▸ hsame) hfetched hf, ?_, ?_⟩, hacks, ?_⟩
        · intro _
          rw [hnet]
          exact hsame.block.trans hnext
        · intro hgoing
          rw [hnet, hfetched.full hgoing, hb, Nat.mul_add, Nat.mul_one]
        · intro _
          have hm : b / SEGSIZE = s.net.1 := by
            rw [hb]
            exact Nat.mul_div_cancel_left _ (by decide)
          refine ⟨?_, Nat.add_le_add_left hsize b, ?_⟩
          · rw [hb]
            exact Nat.mul_mod_right _ _
          · rw [hm]
            exact hsame.block.trans hnext

/-- A request is no acknowledgement. -/
theorem makerequest_ne_ack (name mode : Datagram) (v : BitVec 16) :
    makerequest RRQ name mode ≠ ackPacket v := by
  intro h
  have hopcode : htons RRQ = htons ACK := congrArg (List.take 2) h
  exact absurd hopcode (by decide)

/-- `tftpopen` has opened the file for reading, and the packets are recorded from there on. -/
def OpenedRecorded (file : Datagram) (s : Session (ℕ × List Datagram) ServerTurn) : Prop :=
  ∃ ready filename flags ackbuf rounds, flags &&& O_ACCMODE = O_RDONLY ∧
    tftpopen (recorded (turnServer file)) ready filename flags ackbuf rounds (0, []) = some (0, s)

theorem InStep.of_open (h : OpenedRecorded file s) :
    ∃ first b, (∀ v, first ≠ ackPacket v) ∧ InStep file first 0 b s.file s.net := by
  obtain ⟨ready, filename, flags, ackbuf, rounds, hmode, hopen⟩ := h
  simp only [tftpopen] at hopen
  split at hopen
  · cases hopen
  · split at hopen
    · cases hopen
    · obtain ⟨⟨size, s'⟩, hrrq, hrest⟩ := Option.bind_eq_some_iff.mp hopen
      obtain ⟨i, hlog, hi⟩ := tftprrq_sends hrrq
      obtain ⟨hsame, ⟨hsize, -⟩ | ⟨rfl, hfetched, hnet⟩⟩ :=
        fetch_first.recorded.tftprrq (Or.inl rfl) rfl rfl hrrq
      · dsimp only at hrest
        rw [if_pos hsize] at hrest
        cases hrest
      · dsimp only at hrest
        rw [if_neg (Int.not_lt.mpr (Int.natCast_nonneg _))] at hrest
        cases hrest
        refine ⟨makerequest RRQ filename octet, _, makerequest_ne_ack _ _,
          ⟨Reading.first hmode hsame hfetched, ?_, ?_⟩, ?_, ?_⟩
        · intro _
          rw [hnet]
          exact hsame.block
        · intro hgoing
          rw [hnet, hfetched.full hgoing, Nat.mul_one]
        · rw [hlog]
          exact .opened (hi (Int.natCast_nonneg _))
        · intro _
          refine ⟨rfl, ?_, hsame.block⟩
          rw [Nat.zero_add]
          exact length_blockData_le

end Step

/-! ## Runs -/

/-- The packet that `tftpclose` sends. -/
def closePacket : Datagram := htons ERROR ++ htons 0 ++ closedMessage

section Runs

variable {file first : Datagram} {a b nread : ℕ}
  {s : Session (ℕ × List Datagram) ServerTurn}
  {r : ReadResult (ℕ × List Datagram) ServerTurn}

/-- A read that does not fail leaves a window and its log; if it delivers less than it is
asked for, the window is empty. -/
theorem InStep.read (h : InStep file first a b s.file s.net)
    (hr : tftpread (recorded (turnServer file)) nread s = some r) (hret : 0 ≤ r.ret) :
    ∃ a' b', InStep file first a' b' r.session.file r.session.net ∧
      (r.ret < nread → a' = b') := by
  unfold tftpread at hr
  rw [if_neg (not_not.mpr h.inTurn.reading.mode)] at hr
  have hmove : ∀ t w (n : ℕ), (∃ a b, InStep file first a b t w) →
      ∃ a b, InStep file first a b { t with foffs := t.foffs + n } w := by
    rintro t w n ⟨a, b, ht⟩
    have hbelow := ht.inTurn.reading.below
    exact ⟨a, b, ht.moved (by omega)⟩
  have hkept := tftpreadFrom_keeps hmove ?_ ⟨a, b, h⟩ hr
  · rcases hkept with hfail | ⟨⟨a', b', hstep⟩, left, -, hleft, hend⟩
    · omega
    · refine ⟨a', b', hstep, ?_⟩
      intro hless
      have hread := hstep.inTurn.reading
      have hle := hread.le
      rcases hend with hnone | hempty
      · omega
      · rw [hread.start, hread.stop] at hempty
        omega
  · rintro s s' ret ⟨a, b, hs⟩ hlt hpast hrrq hret
    have hread := hs.inTurn.reading
    rw [hread.start, hread.stop] at hlt
    rw [hread.stop] at hpast
    obtain ⟨b', hnext⟩ := hs.refill (by omega) hpast hrrq hret
    exact ⟨b, b', hnext⟩

theorem inStep_of_reach (h : Runs.Reach (ReadCall.step (recorded (turnServer file)))
    (fun _ _ => True) (OpenedRecorded file) s) :
    ∃ first a b, (∀ v, first ≠ ackPacket v) ∧ InStep file first a b s.file s.net := by
  refine h.invariant (P := fun s => ∃ first a b, (∀ v, first ≠ ackPacket v) ∧
    InStep file first a b s.file s.net) ?_ ?_
  · intro s hopen
    obtain ⟨first, b, hfirst, hs⟩ := InStep.of_open hopen
    exact ⟨first, 0, b, hfirst, hs⟩
  · rintro s c s' ⟨first, a, b, hfirst, hs⟩ - hstep
    cases c with
    | read nread =>
        obtain ⟨r, hr, hend⟩ := Option.bind_eq_some_iff.mp hstep
        split at hend
        · cases hend
        · next hret =>
          cases hend
          obtain ⟨a', b', hs', -⟩ := hs.read hr (Int.not_lt.mp hret)
          exact ⟨first, a', b', hfirst, hs'⟩
    | seek offs how =>
        cases hstep
        have hseek := hs.inTurn.reading.seek offs how
        obtain ⟨foffs, hfoffs⟩ := tftplseek_file offs how s.file
        dsimp only
        rw [hfoffs] at hseek ⊢
        exact ⟨first, a, b, hfirst, hs.moved hseek.below⟩

/-- An empty window is the end of the file. -/
theorem InStep.at_end (h : InStep file first a a s.file s.net) :
    s.file.eof = true ∧ a = file.length := by
  have heof : s.file.eof = true := by
    by_contra hnot
    have := (h.inTurn.reading.going (by simpa using hnot)).1
    omega
  exact ⟨heof, h.inTurn.reading.ended heof⟩

theorem tftpclose_reading {W E : Type} {N : Network W E} {s : Session W E}
    (hmode : s.file.flags &&& O_ACCMODE = O_RDONLY) :
    tftpclose N s =
      if s.file.foffs < s.file.stop ∨ s.file.eof = false then
        match s.rounds with
        | [] => none
        | e :: es =>
          match N.sendto e s.file.port closePacket s.net with
          | none => some ([], { s with rounds := es })
          | some w => some ([], { s with rounds := es, net := w })
      else some ([], s) := by
  unfold tftpclose
  rw [if_neg (by rw [hmode]; decide)]
  rfl

theorem InStep.close_silent (h : InStep file first a a s.file s.net) :
    tftpclose (recorded (turnServer file)) s = some ([], s) := by
  have hread := h.inTurn.reading
  have hbelow := hread.below
  rw [tftpclose_reading hread.mode, if_neg]
  rintro (hlt | hgoing)
  · rw [hread.stop] at hlt
    omega
  · rw [h.at_end.1] at hgoing
    cases hgoing

/-- Before the end of the file `tftpclose` sends an error. -/
theorem InStep.close_error {e : ServerTurn} {rest : List ServerTurn}
    (h : InStep file first a b s.file s.net) (hf : s.file.foffs < file.length)
    (hrounds : s.rounds = e :: rest) (hsends : e.event ≠ .sendFails) :
    ∃ s', tftpclose (recorded (turnServer file)) s = some ([], s') ∧
      s'.net.2 = s.net.2 ++ [closePacket] := by
  have hread := h.inTurn.reading
  have htest : s.file.foffs < s.file.stop ∨ s.file.eof = false := by
    cases heof : s.file.eof with
    | false => exact Or.inr rfl
    | true =>
        left
        rw [hread.stop, hread.ended heof]
        exact hf
  have hsend : ∃ w, (recorded (turnServer file)).sendto e s.file.port closePacket s.net =
      some (w, s.net.2 ++ [closePacket]) :=
    ⟨_, Option.map_eq_some_iff.mpr ⟨_, if_neg hsends, rfl⟩⟩
  obtain ⟨w, hsend⟩ := hsend
  rw [tftpclose_reading hread.mode, if_pos htest, hrounds]
  dsimp only
  rw [hsend]
  exact ⟨_, rfl, rfl⟩

/-- When a read has returned 0 at the end of the file, all blocks are acknowledged just if
the last one is not empty, and `tftpclose` sends nothing.  Before the end of the file it
sends an error. -/
theorem download_acknowledged_iff
    (h : Runs.Reach (ReadCall.step (recorded (turnServer file))) (fun _ _ => True)
      (OpenedRecorded file) s) :
    (∀ nread r, 0 < nread → tftpread (recorded (turnServer file)) nread s = some r →
      r.ret = 0 →
      tftpclose (recorded (turnServer file)) r.session = some ([], r.session) ∧
        ((acksUpTo (fileBlocks file)).Sublist r.session.net.2 ↔ file.length % SEGSIZE ≠ 0)) ∧
      (s.file.foffs < file.length → ∀ e rest, s.rounds = e :: rest → e.event ≠ .sendFails →
        ∃ s', tftpclose (recorded (turnServer file)) s = some ([], s') ∧
          s'.net.2 = s.net.2 ++ [closePacket]) := by
  obtain ⟨first, a, b, hfirst, hs⟩ := inStep_of_reach h
  constructor
  · intro nread r hpos hr hret
    obtain ⟨a', b', hstep, hempty⟩ := hs.read hr (by omega)
    obtain rfl := hempty (by omega)
    refine ⟨hstep.close_silent, ?_⟩
    rw [hstep.acks.acksUpTo_iff hfirst, hstep.at_end.2]
    unfold fileBlocks SEGSIZE
    omega
  · intro hf e rest hrounds hsends
    exact hs.close_error hf hrounds hsends

end Runs

/-- A download of three bytes: the acknowledgement is the last packet. -/
theorem download_acknowledged_short :
    ∃ s r, Runs.Reach (ReadCall.step (recorded (turnServer [10, 20, 30]))) (fun _ _ => True)
        (OpenedRecorded [10, 20, 30]) s ∧
      tftpread (recorded (turnServer [10, 20, 30])) 5 s = some r ∧ r.ret = 0 ∧
      (acksUpTo 1).Sublist r.session.net.2 := by
  obtain ⟨⟨ret, s₀⟩, hopen, hcheck⟩ := Runs.exists_of_any
    (show (tftpopen (recorded (turnServer [10, 20, 30])) true [] 0 (fun _ => 0)
        [⟨true, .data 7000 0⟩, ⟨true, .timesOut⟩] (0, [])).any
      (fun p => p.1 = 0 ∧
        ((Runs.run (ReadCall.step (recorded (turnServer [10, 20, 30]))) p.2 [.read 5]).any
          fun s => (tftpread (recorded (turnServer [10, 20, 30])) 5 s).any fun r => r.ret = 0))
      = true by decide +kernel)
  obtain ⟨rfl, hrun⟩ := of_decide_eq_true hcheck
  obtain ⟨s, hs, hread⟩ := Runs.exists_of_any hrun
  obtain ⟨r, hr, hret⟩ := Runs.exists_of_any hread
  have hret := of_decide_eq_true hret
  have hstart : OpenedRecorded [10, 20, 30] s₀ :=
    ⟨true, [], 0, fun _ => 0, [⟨true, .data 7000 0⟩, ⟨true, .timesOut⟩], rfl, hopen⟩
  have hreach := (Runs.Reach.start hstart).of_run hs
  exact ⟨s, r, hreach, hr, hret,
    (((download_acknowledged_iff hreach).1 5 r (by decide) hr hret).2).mpr (by decide)⟩

/-- A file of one full block, which ends with an empty one. -/
def oneFullBlock : Datagram := List.replicate 512 0

/-- Downloads of no bytes and of one full block: the empty last block is not acknowledged. -/
theorem empty_block_unacknowledged :
    (∃ s r, Runs.Reach (ReadCall.step (recorded (turnServer []))) (fun _ _ => True)
        (OpenedRecorded []) s ∧
      tftpread (recorded (turnServer [])) 1 s = some r ∧ r.ret = 0 ∧
      ¬(acksUpTo (fileBlocks [])).Sublist r.session.net.2) ∧
    ∃ s r, Runs.Reach (ReadCall.step (recorded (turnServer oneFullBlock))) (fun _ _ => True)
        (OpenedRecorded oneFullBlock) s ∧
      tftpread (recorded (turnServer oneFullBlock)) 1 s = some r ∧ r.ret = 0 ∧
      ¬(acksUpTo (fileBlocks oneFullBlock)).Sublist r.session.net.2 := by
  constructor
  · obtain ⟨⟨ret, s⟩, hopen, hcheck⟩ := Runs.exists_of_any
      (show (tftpopen (recorded (turnServer [])) true [] 0 (fun _ => 0)
          [⟨true, .data 7000 0⟩] (0, [])).any
        (fun p => p.1 = 0 ∧ (tftpread (recorded (turnServer [])) 1 p.2).any fun r =>
          r.ret = 0 ∧ ¬(acksUpTo 1).Sublist r.session.net.2) = true by decide +kernel)
    obtain ⟨rfl, hread⟩ := of_decide_eq_true hcheck
    obtain ⟨r, hr, hend⟩ := Runs.exists_of_any hread
    obtain ⟨hret, hacks⟩ := of_decide_eq_true hend
    exact ⟨s, r, .start ⟨true, [], 0, fun _ => 0, [⟨true, .data 7000 0⟩], rfl, hopen⟩, hr, hret,
      hacks⟩
  · obtain ⟨⟨ret, s₀⟩, hopen, hcheck⟩ := Runs.exists_of_any
      (show (tftpopen (recorded (turnServer oneFullBlock)) true [] 0 (fun _ => 0)
          [⟨true, .data 7000 0⟩, ⟨true, .data 7000 0⟩] (0, [])).any
        (fun p => p.1 = 0 ∧
          ((Runs.run (ReadCall.step (recorded (turnServer oneFullBlock))) p.2 [.read 512]).any
            fun s => (tftpread (recorded (turnServer oneFullBlock)) 1 s).any fun r =>
              r.ret = 0 ∧ ¬(acksUpTo 2).Sublist r.session.net.2)) = true by decide +kernel)
    obtain ⟨rfl, hrun⟩ := of_decide_eq_true hcheck
    obtain ⟨s, hs, hread⟩ := Runs.exists_of_any hrun
    obtain ⟨r, hr, hend⟩ := Runs.exists_of_any hread
    obtain ⟨hret, hacks⟩ := of_decide_eq_true hend
    have hstart : OpenedRecorded oneFullBlock s₀ :=
      ⟨true, [], 0, fun _ => 0, [⟨true, .data 7000 0⟩, ⟨true, .data 7000 0⟩], rfl, hopen⟩
    have hblocks : fileBlocks oneFullBlock = 2 := by
      unfold fileBlocks oneFullBlock
      rw [List.length_replicate]
      rfl
    exact ⟨s, r, (Runs.Reach.start hstart).of_run hs, hr, hret, by rw [hblocks]; exact hacks⟩

end LuojiOs
