import LuojiOs.Tcp.Send
import LuojiOs.Tcp.Reassembly
import LuojiOs.Support.Tiling

/-!
# The segments of a sender

The segments that are not acknowledged and those that are not sent lie end to end in the stream,
each one on one of the two queues.  A segment changes its queue when it is sent, and again when it
is to be sent once more; it leaves them when all of it is acknowledged.
-/

namespace LuojiOs

namespace Tcp

open SerialNumbers

variable {st : Stream} {base : BitVec 32} {s : Seg} {U V L : List Seg} {a e n p : ℕ} {c : Bool}

/-! ## Tiles -/

/-- A segment with its position. -/
structure Tile where
  pos : ℕ
  seg : Seg

def Tile.stop (x : Tile) : ℕ := x.pos + x.seg.tcplen

variable {t : List Tile} {m : List (Tile × Bool)} {x y : Tile}

/-- The tiles from `a` to `e`, which are near enough for their numbers to be compared. -/
structure Laid (st : Stream) (base : BitVec 32) (a e : ℕ) (t : List Tile) : Prop where
  tiles : Tiling.Tiles Tile.pos Tile.stop a t e
  piece : ∀ x ∈ t, Piece st base x.seg x.pos
  near : e < a + 2 ^ 30

theorem Laid.bounds (h : Laid st base a e t) (hx : x ∈ t) :
    a ≤ x.pos ∧ x.pos < x.stop ∧ x.stop ≤ e :=
  h.tiles.mem_bounds hx

theorem Laid.seqLt_iff (h : Laid st base a e t) (hx : x ∈ t) (hy : y ∈ t) :
    seqLt x.seg.seqno y.seg.seqno = true ↔ x.pos < y.pos := by
  have hnear := h.near
  have hxb := h.bounds hx
  have hyb := h.bounds hy
  rw [(h.piece x hx).seqno, (h.piece y hy).seqno]
  exact Tcp.seqLt_iff base ⟨by change x.pos < y.pos + 2 ^ 31; omega,
    by change y.pos < x.pos + 2 ^ 31; omega⟩

/-- The order of the tiles before and behind a tile. -/
theorem Laid.around {A B : List Tile} (h : Laid st base a e (A ++ x :: B)) :
    (∀ y ∈ A, y.pos < x.pos) ∧ ∀ y ∈ B, x.pos < y.pos := by
  obtain ⟨hA, hlt, hB⟩ := Tiling.tiles_append_cons.mp h.tiles
  refine ⟨fun y hy => ?_, fun y hy => ?_⟩
  · have hy' := hA.mem_bounds hy
    omega
  · have hy' := hB.mem_bounds hy
    omega

/-- If the first tile ends behind `n`, all of them do. -/
theorem Laid.lt_stop (h : Laid st base a e t) (hhead : ∀ x ∈ t.head?, n < x.stop) (hx : x ∈ t) :
    n < x.stop := by
  cases t with
  | nil => cases hx
  | cons y t =>
      have hy := hhead y rfl
      rcases List.mem_cons.mp hx with rfl | hx
      · exact hy
      · have hbounds := h.tiles.2.2.mem_bounds hx
        omega

/-- The first tile begins not far before `n`. -/
theorem Laid.start_near (h : Laid st base a e t) (hhead : ∀ x ∈ t.head?, n < x.stop) (hn : n ≤ e) :
    n ≤ a + 2 ^ 16 := by
  cases t with
  | nil =>
      have hae : a = e := h.tiles
      omega
  | cons y t =>
      have hy := hhead y rfl
      have hlen := (h.piece y List.mem_cons_self).len
      have hle : y.seg.tcplen ≤ y.seg.len + 1 := Nat.add_le_add_left (Bool.toNat_le _) _
      have hstart : y.pos = a := h.tiles.1
      unfold Tile.stop at hy
      omega

theorem exists_tile (h : Tiling.Tiles Tile.pos Tile.stop a t e) (ha : a ≤ p) (he : p < e) :
    ∃ x ∈ t, x.pos ≤ p ∧ p < x.stop := by
  induction t generalizing a with
  | nil =>
      change a = e at h
      omega
  | cons x t ih =>
      obtain ⟨rfl, -, ht⟩ := h
      by_cases hp : p < x.stop
      · exact ⟨x, List.mem_cons_self, ha, hp⟩
      · obtain ⟨y, hy, hyp⟩ := ih ht (Nat.le_of_not_lt hp)
        exact ⟨y, List.mem_cons_of_mem x hy, hyp⟩

/-! ## Marked tiles -/

/-- The segments on one of the queues, of tiles that are marked with theirs. -/
def part (c : Bool) : List (Tile × Bool) → List Seg
  | [] => []
  | x :: m => if x.2 = c then x.1.seg :: part c m else part c m

@[simp] theorem part_nil (c : Bool) : part c [] = [] := rfl

@[simp] theorem part_cons_self (x : Tile) (c : Bool) :
    part c ((x, c) :: m) = x.seg :: part c m := if_pos rfl

theorem part_cons_of_ne {d : Bool} (h : d ≠ c) : part c ((x, d) :: m) = part c m := if_neg h

@[simp] theorem part_append (c : Bool) (m m' : List (Tile × Bool)) :
    part c (m ++ m') = part c m ++ part c m' := by
  induction m with
  | nil => rfl
  | cons x m ih =>
      obtain ⟨x, d⟩ := x
      by_cases hd : d = c
      · subst hd
        rw [List.cons_append, part_cons_self, part_cons_self, ih, List.cons_append]
      · rw [List.cons_append, part_cons_of_ne hd, part_cons_of_ne hd, ih]

theorem mem_part : s ∈ part c m ↔ ∃ x, (x, c) ∈ m ∧ x.seg = s := by
  induction m with
  | nil => simp
  | cons x m ih =>
      obtain ⟨x, d⟩ := x
      by_cases hd : d = c
      · subst hd
        rw [part_cons_self, List.mem_cons, ih]
        simp [or_and_right, exists_or, eq_comm]
      · rw [part_cons_of_ne hd, ih]
        simp [Ne.symm hd]

/-- All tiles marked alike are on one queue. -/
@[simp] theorem part_map_self (c : Bool) (t : List Tile) :
    part c (t.map fun x => (x, c)) = t.map Tile.seg := by
  induction t with
  | nil => rfl
  | cons x t ih => rw [List.map_cons, part_cons_self, ih, List.map_cons]

theorem part_map_of_ne {d : Bool} (h : d ≠ c) (t : List Tile) :
    part c (t.map fun x => (x, d)) = [] := by
  induction t with
  | nil => rfl
  | cons x t ih => rw [List.map_cons, part_cons_of_ne h, ih]

/-- The tile of the first segment of a queue. -/
theorem part_eq_cons {rest : List Seg} (h : part c m = s :: rest) :
    ∃ A x B, m = A ++ (x, c) :: B ∧ x.seg = s ∧ part c A = [] ∧ part c B = rest := by
  induction m with
  | nil => cases h
  | cons x m ih =>
      obtain ⟨x, d⟩ := x
      by_cases hd : d = c
      · subst hd
        rw [part_cons_self] at h
        obtain ⟨hseg, hrest⟩ := List.cons.inj h
        exact ⟨[], x, m, rfl, hseg, rfl, hrest⟩
      · rw [part_cons_of_ne hd] at h
        obtain ⟨A, y, B, rfl, hseg, hA, hB⟩ := ih h
        exact ⟨(x, d) :: A, y, B, rfl, hseg, (part_cons_of_ne hd).trans hA, hB⟩

/-! ## Places on a queue -/

theorem insertSeg_append {X Y : List Seg} (hX : ∀ x ∈ X, seqLt x.seqno s.seqno = true)
    (hY : ∀ y ∈ Y, seqLt y.seqno s.seqno = false) : insertSeg s (X ++ Y) = X ++ s :: Y := by
  induction X with
  | nil =>
      cases Y with
      | nil => rfl
      | cons y Y =>
          rw [List.nil_append, insertSeg, hY y List.mem_cons_self]
          rfl
  | cons x X ih =>
      rw [List.cons_append, insertSeg, if_pos (hX x List.mem_cons_self),
        ih fun z hz => hX z (List.mem_cons_of_mem x hz), List.cons_append]

theorem putUnacked_append {X Y : List Seg} (hX : ∀ x ∈ X, seqLt x.seqno s.seqno = true)
    (hX' : ∀ x ∈ X, seqLt s.seqno x.seqno = false) (hY : ∀ y ∈ Y, seqLt y.seqno s.seqno = false)
    (hY' : ∀ y ∈ Y, seqLt s.seqno y.seqno = true) : putUnacked s (X ++ Y) = X ++ s :: Y := by
  unfold putUnacked
  rcases List.eq_nil_or_concat Y with rfl | ⟨Y, y, rfl⟩
  · rw [List.append_nil]
    rcases List.eq_nil_or_concat X with rfl | ⟨X, x, rfl⟩
    · rfl
    · have hlast := hX' x (by simp)
      simp [hlast]
  · have hlast := hY' y (by simp)
    rw [List.concat_eq_append, ← List.append_assoc, List.getLast?_concat, List.append_assoc]
    dsimp only
    rw [if_pos hlast]
    exact insertSeg_append hX fun z hz => hY z (by simpa using hz)

/-- The segment of a tile has its place on each queue. -/
theorem Laid.places {A B : List (Tile × Bool)} {d : Bool}
    (h : Laid st base a e ((A ++ (x, d) :: B).map Prod.fst)) (c : Bool) :
    (∀ y ∈ part c A, seqLt y.seqno x.seg.seqno = true ∧ seqLt x.seg.seqno y.seqno = false) ∧
      ∀ y ∈ part c B, seqLt y.seqno x.seg.seqno = false ∧ seqLt x.seg.seqno y.seqno = true := by
  rw [List.map_append, List.map_cons] at h
  change Laid st base a e (A.map Prod.fst ++ x :: B.map Prod.fst) at h
  obtain ⟨hA, hB⟩ := h.around
  have hx : x ∈ A.map Prod.fst ++ x :: B.map Prod.fst :=
    List.mem_append_right _ List.mem_cons_self
  refine ⟨fun y hy => ?_, fun y hy => ?_⟩
  · obtain ⟨z, hz, rfl⟩ := mem_part.mp hy
    have hzA : z ∈ A.map Prod.fst := List.mem_map_of_mem hz
    have hlt := hA z hzA
    rw [h.seqLt_iff (List.mem_append_left _ hzA) hx, ← Bool.not_eq_true,
      h.seqLt_iff hx (List.mem_append_left _ hzA)]
    omega
  · obtain ⟨z, hz, rfl⟩ := mem_part.mp hy
    have hzB : z ∈ B.map Prod.fst := List.mem_map_of_mem hz
    have hlt := hB z hzB
    have hmem : z ∈ A.map Prod.fst ++ x :: B.map Prod.fst :=
      List.mem_append_right _ (List.mem_cons_of_mem _ hzB)
    rw [h.seqLt_iff hx hmem, ← Bool.not_eq_true, h.seqLt_iff hmem hx]
    omega

/-! ## The two queues -/

/-- The tiles have what is not acknowledged, from `n` on and up to `e`. -/
structure Covering (st : Stream) (base : BitVec 32) (n a e : ℕ) (t : List Tile) : Prop
    extends Laid st base a e t where
  start : a ≤ n
  stop : n ≤ e
  head : ∀ x ∈ t.head?, n < x.stop

/-- The two queues have it. -/
def Queues (st : Stream) (base : BitVec 32) (n e : ℕ) (unacked unsent : List Seg) : Prop :=
  ∃ a m, Covering st base n a e (m.map Prod.fst) ∧ part true m = unacked ∧ part false m = unsent

/-- A segment is sent. -/
theorem Queues.send (h : Queues st base n e U (s :: V)) :
    Queues st base n e (putUnacked s U) V := by
  obtain ⟨a, m, hcover, rfl, hunsent⟩ := h
  obtain ⟨A, x, B, rfl, rfl, hA, rfl⟩ := part_eq_cons hunsent
  obtain ⟨hbefore, hbehind⟩ := hcover.places true
  refine ⟨a, A ++ (x, true) :: B, ?_, ?_, ?_⟩
  · rw [List.map_append, List.map_cons] at hcover ⊢
    exact hcover
  · rw [part_append, part_append, part_cons_self, part_cons_of_ne (by decide),
      putUnacked_append (fun y hy => (hbefore y hy).1) (fun y hy => (hbefore y hy).2)
        (fun y hy => (hbehind y hy).1) fun y hy => (hbehind y hy).2]
  · rw [part_append, part_cons_of_ne (by decide), hA, List.nil_append]

/-- A segment is to be sent once more. -/
theorem Queues.rexmit (h : Queues st base n e (s :: U) V) :
    Queues st base n e U (insertSeg s V) := by
  obtain ⟨a, m, hcover, hunacked, rfl⟩ := h
  obtain ⟨A, x, B, rfl, rfl, hA, rfl⟩ := part_eq_cons hunacked
  obtain ⟨hbefore, hbehind⟩ := hcover.places false
  refine ⟨a, A ++ (x, false) :: B, ?_, ?_, ?_⟩
  · rw [List.map_append, List.map_cons] at hcover ⊢
    exact hcover
  · rw [part_append, part_cons_of_ne (by decide), hA, List.nil_append]
  · rw [part_append, part_append, part_cons_self, part_cons_of_ne (by decide),
      insertSeg_append (fun y hy => (hbefore y hy).1) fun y hy => (hbehind y hy).1]

theorem Queues.tile (h : Queues st base n e U V) (hs : s ∈ U ++ V) :
    ∃ a t, Covering st base n a e t ∧ ∃ x ∈ t, x.seg = s := by
  obtain ⟨a, m, hcover, rfl, rfl⟩ := h
  refine ⟨a, _, hcover, ?_⟩
  rcases List.mem_append.mp hs with hU | hV
  · obtain ⟨x, hx, hseg⟩ := mem_part.mp hU
    exact ⟨x, List.mem_map_of_mem hx, hseg⟩
  · obtain ⟨x, hx, hseg⟩ := mem_part.mp hV
    exact ⟨x, List.mem_map_of_mem hx, hseg⟩

/-- A segment of the queues has its position around what is not acknowledged. -/
structure Around (st : Stream) (base : BitVec 32) (n e : ℕ) (s : Seg) (pos : ℕ) : Prop where
  piece : Piece st base s pos
  tcplen : 0 < s.tcplen
  lo : n < pos + s.tcplen
  hi : pos + s.tcplen ≤ e
  near : e < pos + 2 ^ 30

theorem Queues.mem (h : Queues st base n e U V) (hs : s ∈ U ++ V) :
    ∃ pos, Around st base n e s pos := by
  obtain ⟨a, t, hcover, x, hx, rfl⟩ := h.tile hs
  have hbounds := hcover.bounds hx
  have hnear := hcover.near
  have hstop := hcover.lt_stop hcover.head hx
  unfold Tile.stop at hbounds hstop
  exact ⟨x.pos, hcover.piece x hx, by omega, hstop, hbounds.2.2, by omega⟩

/-- What is not acknowledged is on the queues. -/
theorem Queues.covers (h : Queues st base n e U V) (hn : n ≤ p) (he : p < e) :
    ∃ s ∈ U ++ V, ∃ pos, Piece st base s pos ∧ pos ≤ p ∧ p < pos + s.tcplen := by
  obtain ⟨a, m, hcover, rfl, rfl⟩ := h
  obtain ⟨x, hx, hle, hlt⟩ := exists_tile hcover.tiles (hcover.start.trans hn) he
  obtain ⟨⟨x, c⟩, hmem, rfl⟩ := List.mem_map.mp hx
  refine ⟨x.seg, List.mem_append.mpr ?_, x.pos, hcover.piece x hx, hle, hlt⟩
  cases c with
  | true => exact Or.inl (mem_part.mpr ⟨x, hmem, rfl⟩)
  | false => exact Or.inr (mem_part.mpr ⟨x, hmem, rfl⟩)

/-! ## Acknowledgements -/

theorem dropWhile_eq_self {α : Type*} {q : α → Bool} {l : List α} (h : ∀ x ∈ l, q x = false) :
    l.dropWhile q = l := by
  cases l with
  | nil => rfl
  | cons x l => rw [List.dropWhile_cons, h x List.mem_cons_self, if_neg Bool.false_ne_true]

/-- The tiles that end at `p` or before are the first ones, on both queues. -/
theorem part_dropWhile (h : Tiling.Tiles Tile.pos Tile.stop a (m.map Prod.fst) e)
    {q : Seg → Bool} (hq : ∀ x ∈ m, x.2 = c → (q x.1.seg = true ↔ x.1.stop ≤ p)) :
    part c (m.dropWhile fun x => x.1.stop ≤ p) = (part c m).dropWhile q := by
  induction m generalizing a with
  | nil => rfl
  | cons x m ih =>
      obtain ⟨x, d⟩ := x
      obtain ⟨-, -, hrest⟩ := h
      by_cases hp : x.stop ≤ p
      · rw [List.dropWhile_cons, if_pos (decide_eq_true hp),
          ih hrest fun y hy => hq y (List.mem_cons_of_mem _ hy)]
        by_cases hd : d = c
        · subst hd
          rw [part_cons_self, List.dropWhile_cons, (hq _ List.mem_cons_self rfl).mpr hp, if_pos rfl]
        · rw [part_cons_of_ne hd]
      · rw [List.dropWhile_cons, decide_eq_false hp, if_neg Bool.false_ne_true,
          dropWhile_eq_self fun s hs => ?_]
        obtain ⟨y, hy, rfl⟩ := mem_part.mp hs
        refine (Bool.not_eq_true _).mp (mt (hq _ hy rfl).mp ?_)
        rcases List.mem_cons.mp hy with heq | hy
        · obtain ⟨rfl, -⟩ := Prod.mk.inj heq
          exact hp
        · have hbounds := hrest.mem_bounds (List.mem_map_of_mem hy)
          change ¬y.stop ≤ p
          change x.stop ≤ y.pos ∧ y.pos < y.stop ∧ _ at hbounds
          omega

theorem tiles_dropWhile (h : Tiling.Tiles Tile.pos Tile.stop a (m.map Prod.fst) e) (ha : a ≤ p) :
    ∃ b, a ≤ b ∧ b ≤ p ∧
      Tiling.Tiles Tile.pos Tile.stop b ((m.dropWhile fun x => x.1.stop ≤ p).map Prod.fst) e ∧
      ∀ x ∈ ((m.dropWhile fun x => x.1.stop ≤ p).map Prod.fst).head?, p < x.stop := by
  induction m generalizing a with
  | nil => exact ⟨a, le_rfl, ha, h, fun x hx => by cases hx⟩
  | cons x m ih =>
      obtain ⟨hstart, hlt, hrest⟩ := h
      rw [List.dropWhile_cons]
      by_cases hp : x.1.stop ≤ p
      · rw [if_pos (decide_eq_true hp)]
        obtain ⟨b, hab, hdone⟩ := ih hrest hp
        exact ⟨b, by omega, hdone⟩
      · rw [decide_eq_false hp, if_neg Bool.false_ne_true]
        refine ⟨a, le_rfl, ha, ⟨hstart, hlt, hrest⟩, fun y hy => ?_⟩
        obtain rfl := Option.some.inj hy
        exact Nat.lt_of_not_le hp

/-- What is acknowledged up to `p` leaves the queues. -/
theorem Queues.ack (h : Queues st base n e U V) (hp : n ≤ p) (he : p ≤ e) {q q' : Seg → Bool}
    (hq : ∀ s pos, Around st base n e s pos → (q s = true ↔ pos + s.tcplen ≤ p))
    (hq' : ∀ s pos, Around st base n e s pos → (q' s = true ↔ pos + s.tcplen ≤ p)) :
    Queues st base p e (U.dropWhile q) (V.dropWhile q') := by
  obtain ⟨a, m, hcover, rfl, rfl⟩ := h
  have haround : ∀ x ∈ m, Around st base n e x.1.seg x.1.pos := by
    intro x hx
    have hmem : x.1 ∈ m.map Prod.fst := List.mem_map_of_mem hx
    have hbounds := hcover.bounds hmem
    have hnear := hcover.near
    have hstop := hcover.lt_stop hcover.head hmem
    unfold Tile.stop at hbounds hstop
    exact ⟨hcover.piece x.1 hmem, by omega, hstop, hbounds.2.2, by omega⟩
  obtain ⟨b, hab, hbp, htiles, hhead⟩ := tiles_dropWhile hcover.tiles (hcover.start.trans hp)
  refine ⟨b, m.dropWhile fun x => x.1.stop ≤ p, ⟨⟨htiles, fun x hx => ?_, ?_⟩, hbp, he, hhead⟩,
    part_dropWhile hcover.tiles fun x hx _ => hq _ _ (haround x hx),
    part_dropWhile hcover.tiles fun x hx _ => hq' _ _ (haround x hx)⟩
  · obtain ⟨y, hy, rfl⟩ := List.mem_map.mp hx
    exact hcover.piece _ (List.mem_map_of_mem ((List.dropWhile_sublist _).subset hy))
  · have hnear := hcover.near
    omega

/-! ## Queues that follow each other -/

/-- The segments lie end to end. -/
def Line (st : Stream) (base : BitVec 32) (n e : ℕ) (l : List Seg) : Prop :=
  ∃ a t, Covering st base n a e t ∧ t.map Tile.seg = l

theorem Line.queues (h : Line st base n e (U ++ V)) : Queues st base n e U V := by
  obtain ⟨a, t, hcover, ht⟩ := h
  obtain ⟨A, B, rfl, rfl, rfl⟩ := List.map_eq_append_iff.mp ht
  refine ⟨a, A.map (fun x => (x, true)) ++ B.map fun x => (x, false), ?_, ?_, ?_⟩
  · simpa [Function.comp_def] using hcover
  · rw [part_append, part_map_self, part_map_of_ne (by decide), List.append_nil]
  · rw [part_append, part_map_self, part_map_of_ne (by decide), List.nil_append]

/-- No segment that is to be sent comes before one that is sent: none waits for its
retransmission. -/
theorem part_of_ordered (h : Laid st base a e (m.map Prod.fst))
    (ho : ∀ s ∈ part true m, ∀ u ∈ part false m, seqLt s.seqno u.seqno = true) :
    (m.map Prod.fst).map Tile.seg = part true m ++ part false m := by
  induction m generalizing a with
  | nil => rfl
  | cons x m ih =>
      obtain ⟨x, d⟩ := x
      have hrest : Laid st base x.stop e (m.map Prod.fst) := by
        obtain ⟨hstart, hlt, htiles⟩ := h.tiles
        have hnear := h.near
        refine ⟨htiles, fun y hy => h.piece y (List.mem_cons_of_mem _ hy), ?_⟩
        change x.pos = a at hstart
        change x.pos < x.stop at hlt
        omega
      cases d with
      | true =>
          rw [part_cons_self, part_cons_of_ne (by decide)] at ho ⊢
          rw [List.map_cons, List.map_cons,
            ih hrest fun s hs => ho s (List.mem_cons_of_mem _ hs), List.cons_append]
      | false =>
          rw [part_cons_self, part_cons_of_ne (by decide)] at ho ⊢
          have hnone : part true m = [] := by
            refine List.eq_nil_iff_forall_not_mem.mpr fun s hs => ?_
            obtain ⟨y, hy, rfl⟩ := mem_part.mp hs
            have hmem : y ∈ m.map Prod.fst := List.mem_map_of_mem hy
            have hlt := ho _ hs _ List.mem_cons_self
            rw [h.seqLt_iff (List.mem_cons_of_mem _ hmem) List.mem_cons_self] at hlt
            change y.pos < x.pos at hlt
            have hstart := (hrest.bounds hmem).1
            have hpos : x.pos < x.stop := h.tiles.2.1
            omega
          rw [List.map_cons, List.map_cons, hnone, List.nil_append, ih hrest fun s hs => ?_, hnone,
            List.nil_append]
          rw [hnone] at hs
          cases hs

theorem Queues.line (h : Queues st base n e U V)
    (ho : ∀ s ∈ U, ∀ u ∈ V, seqLt s.seqno u.seqno = true) : Line st base n e (U ++ V) := by
  obtain ⟨a, m, hcover, rfl, rfl⟩ := h
  exact ⟨a, m.map Prod.fst, hcover, part_of_ordered hcover.toLaid ho⟩

/-- The last segment becomes longer. -/
theorem Line.extend {s' : Seg} {k : ℕ} (h : Line st base n e (L ++ [s]))
    (hs : ∀ pos, Piece st base s pos → pos + s.tcplen = e → Piece st base s' pos)
    (hlen : s'.tcplen = s.tcplen + k) (hnear : e + k + 2 ^ 16 < n + 2 ^ 30) :
    Line st base n (e + k) (L ++ [s']) := by
  obtain ⟨a, t, hcover, ht⟩ := h
  obtain ⟨A, B, rfl, rfl, hB⟩ := List.map_eq_append_iff.mp ht
  obtain ⟨x, rfl, rfl⟩ := List.map_eq_singleton_iff.mp hB
  have hstart := hcover.start_near hcover.head hcover.stop
  have hn := hcover.stop
  have hlt := hcover.start
  obtain ⟨hA, hpos, hend⟩ := Tiling.tiles_append_cons.mp hcover.tiles
  change x.pos + x.seg.tcplen = e at hend
  refine ⟨a, A ++ [⟨x.pos, s'⟩], ⟨⟨?_, fun y hy => ?_, by omega⟩, hlt, by omega, fun y hy => ?_⟩,
    by simp⟩
  · refine Tiling.tiles_append_cons.mpr ⟨hA, ?_, ?_⟩
    · change x.pos < x.pos + x.seg.tcplen at hpos
      change x.pos < x.pos + s'.tcplen
      omega
    · change x.pos + s'.tcplen = e + k
      omega
  · rcases List.mem_append.mp hy with hyA | hy
    · exact hcover.piece y (List.mem_append_left _ hyA)
    · obtain rfl := List.mem_singleton.mp hy
      exact hs x.pos (hcover.piece x (by simp)) hend
  · cases A with
    | nil =>
        obtain rfl := Option.some.inj hy
        have hhead := hcover.head x rfl
        change n < x.pos + x.seg.tcplen at hhead
        change n < x.pos + s'.tcplen
        omega
    | cons z A => exact hcover.head y hy

/-- A segment is put at the end. -/
theorem Line.snoc (h : Line st base n e L) (hs : Piece st base s e) (hpos : 0 < s.tcplen)
    (hnear : e + s.tcplen + 2 ^ 16 < n + 2 ^ 30) :
    Line st base n (e + s.tcplen) (L ++ [s]) := by
  obtain ⟨a, t, hcover, rfl⟩ := h
  have hstart := hcover.start_near hcover.head hcover.stop
  have hn := hcover.stop
  refine ⟨a, t ++ [⟨e, s⟩], ⟨⟨?_, fun y hy => ?_, by omega⟩, hcover.start, by omega,
    fun y hy => ?_⟩, by simp⟩
  · exact Tiling.tiles_append_cons.mpr ⟨hcover.tiles, Nat.lt_add_of_pos_right hpos, rfl⟩
  · rcases List.mem_append.mp hy with hyt | hy
    · exact hcover.piece y hyt
    · obtain rfl := List.mem_singleton.mp hy
      exact hs
  · cases t with
    | nil =>
        obtain rfl := Option.some.inj hy
        change n < e + s.tcplen
        omega
    | cons z t => exact hcover.head y hy

end Tcp

end LuojiOs
