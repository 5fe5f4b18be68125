import Mathlib.Data.List.Nodup
import Mathlib.Logic.Function.Basic

/-!
# Intrusive circular lists and the sequences they stand for

An intrusive list is a map from nodes to their two neighbours.  A head node and
the nodes linked after it form a ring; a node that is on no list points at
itself.  `Links` is the pointer level, with the four primitive edits written as
the sequences of assignments a C implementation makes.  `Rings` is the level of
sequences: every root with the list of its members.  `Rings.Represents` connects
the two, and the results below say which edit of the sequences each pointer edit
performs.

The node type is arbitrary; nothing here refers to a particular program.
-/

namespace CircularList

/-- The two neighbour pointers of every node. -/
@[ext] structure Links (N : Type*) where
  next : N → N
  prev : N → N

namespace Links

variable {N : Type*} [DecidableEq N]

/-- Assign the forward pointer of one node. -/
def setNext (m : Links N) (a b : N) : Links N :=
  { m with next := Function.update m.next a b }

/-- Assign the backward pointer of one node. -/
def setPrev (m : Links N) (a b : N) : Links N :=
  { m with prev := Function.update m.prev a b }

@[simp] theorem next_setNext (m : Links N) (a b x : N) :
    (m.setNext a b).next x = if x = a then b else m.next x := by
  simp [setNext, Function.update_apply]

@[simp] theorem prev_setNext (m : Links N) (a b x : N) :
    (m.setNext a b).prev x = m.prev x := rfl

@[simp] theorem next_setPrev (m : Links N) (a b x : N) :
    (m.setPrev a b).next x = m.next x := rfl

@[simp] theorem prev_setPrev (m : Links N) (a b x : N) :
    (m.setPrev a b).prev x = if x = a then b else m.prev x := by
  simp [setPrev, Function.update_apply]

/-- `l->next = l->prev = l`. -/
def init (m : Links N) (l : N) : Links N :=
  (m.setPrev l l).setNext l l

/-- `l->prev->next = n; n->prev = l->prev; l->prev = n; n->next = l`. -/
def insertBefore (m : Links N) (l n : N) : Links N :=
  let m₁ := m.setNext (m.prev l) n
  let m₂ := m₁.setPrev n (m₁.prev l)
  let m₃ := m₂.setPrev l n
  m₃.setNext n l

/-- `l->next->prev = n; n->next = l->next; l->next = n; n->prev = l`. -/
def insertAfter (m : Links N) (l n : N) : Links N :=
  let m₁ := m.setPrev (m.next l) n
  let m₂ := m₁.setNext n (m₁.next l)
  let m₃ := m₂.setNext l n
  m₃.setPrev n l

/-- `n->next->prev = n->prev; n->prev->next = n->next; n->next = n->prev = n`. -/
def remove (m : Links N) (n : N) : Links N :=
  let m₁ := m.setPrev (m.next n) (m.prev n)
  let m₂ := m₁.setNext (m₁.prev n) (m₁.next n)
  (m₂.setPrev n n).setNext n n

/-- A list head is empty when it points at itself. -/
def isEmpty (m : Links N) (l : N) : Bool :=
  m.next l = l

/-! ## Nodes that are out of use -/

/-- The pointers of the nodes in `P` stay in `P`, and the other nodes are linked to
themselves only. -/
structure Closed (P : N → Prop) (m : Links N) : Prop where
  inside : ∀ n, P n → P (m.next n) ∧ P (m.prev n)
  outside : ∀ n, ¬P n → m.next n = n ∧ m.prev n = n

section

variable {P : N → Prop} {m : Links N} {l n : N}

/-- The pointers are assigned within `P`. -/
theorem Closed.setNext (h : m.Closed P) (hl : P l) (hn : P n) : (m.setNext l n).Closed P where
  inside x hx := by
    obtain ⟨hnext, hprev⟩ := h.inside x hx
    by_cases hxl : x = l
    · simpa [hxl, hn] using hxl ▸ hprev
    · simpa [hxl] using ⟨hnext, hprev⟩
  outside x hx := by
    have hxl : x ≠ l := by
      rintro rfl
      exact hx hl
    simpa [hxl] using h.outside x hx

theorem Closed.setPrev (h : m.Closed P) (hl : P l) (hn : P n) : (m.setPrev l n).Closed P where
  inside x hx := by
    obtain ⟨hnext, hprev⟩ := h.inside x hx
    by_cases hxl : x = l
    · simpa [hxl, hn] using hxl ▸ hnext
    · simpa [hxl] using ⟨hnext, hprev⟩
  outside x hx := by
    have hxl : x ≠ l := by
      rintro rfl
      exact hx hl
    simpa [hxl] using h.outside x hx

theorem Closed.init (h : m.Closed P) (hn : P n) : (m.init n).Closed P :=
  (h.setPrev hn hn).setNext hn hn

theorem Closed.insertBefore (h : m.Closed P) (hl : P l) (hn : P n) :
    (m.insertBefore l n).Closed P := by
  have h₁ := h.setNext (h.inside l hl).2 hn
  have h₂ := h₁.setPrev hn (h₁.inside l hl).2
  exact (h₂.setPrev hl hn).setNext hn hl

theorem Closed.insertAfter (h : m.Closed P) (hl : P l) (hn : P n) :
    (m.insertAfter l n).Closed P := by
  have h₁ := h.setPrev (h.inside l hl).1 hn
  have h₂ := h₁.setNext hn (h₁.inside l hl).1
  exact (h₂.setNext hl hn).setPrev hn hl

omit [DecidableEq N] in
/-- A node that was linked to itself only may come into use. -/
theorem Closed.mono {P' : N → Prop} (h : m.Closed P) (hP : ∀ x, P x → P' x) : m.Closed P' where
  inside x hx := by
    by_cases hxP : P x
    · exact ⟨hP _ (h.inside x hxP).1, hP _ (h.inside x hxP).2⟩
    · obtain ⟨hnext, hprev⟩ := h.outside x hxP
      rw [hnext, hprev]
      exact ⟨hx, hx⟩
  outside x hx := h.outside x fun hxP => hx (hP x hxP)

end

/-! ## Paths of linked nodes -/

/-- `a`, the nodes of `xs` and `b` are linked one after the other, in both
directions. -/
def Path (m : Links N) : N → List N → N → Prop
  | a, [], b => m.next a = b ∧ m.prev b = a
  | a, x :: xs, b => (m.next a = x ∧ m.prev x = a) ∧ Path m x xs b

omit [DecidableEq N] in
theorem path_nil {m : Links N} {a b : N} :
    m.Path a [] b ↔ m.next a = b ∧ m.prev b = a := Iff.rfl

omit [DecidableEq N] in
theorem path_cons {m : Links N} {a b x : N} {xs : List N} :
    m.Path a (x :: xs) b ↔ (m.next a = x ∧ m.prev x = a) ∧ m.Path x xs b := Iff.rfl

omit [DecidableEq N] in
theorem path_append {m : Links N} {a b y : N} {xs ys : List N} :
    m.Path a (xs ++ y :: ys) b ↔ m.Path a xs y ∧ m.Path y ys b := by
  induction xs generalizing a with
  | nil => simp [path_cons, path_nil]
  | cons x xs ih =>
      rw [List.cons_append, path_cons, path_cons, ih]
      exact and_assoc.symm

omit [DecidableEq N] in
theorem path_concat {m : Links N} {a b y : N} {xs : List N} :
    m.Path a (xs ++ [y]) b ↔ m.Path a xs y ∧ m.next y = b ∧ m.prev b = y :=
  path_append

omit [DecidableEq N] in
/-- A ring looks the same from each of its nodes. -/
theorem path_rotate {m : Links N} {a b : N} {xs ys zs : List N}
    (h : a :: xs = ys ++ b :: zs) : m.Path a xs a ↔ m.Path b (zs ++ ys) b := by
  cases ys with
  | nil =>
      obtain ⟨rfl, rfl⟩ := List.cons.inj h
      rw [List.append_nil]
  | cons y ys =>
      rw [List.cons_append] at h
      obtain ⟨rfl, rfl⟩ := List.cons.inj h
      rw [path_append, path_append]
      exact and_comm

omit [DecidableEq N] in
theorem path_rotate_concat {m : Links N} {a b : N} {xs ys zs : List N}
    (h : xs ++ [a] = ys ++ b :: zs) : m.Path a xs a ↔ m.Path b (zs ++ ys) b := by
  rcases List.eq_nil_or_concat zs with rfl | ⟨zs, c, rfl⟩
  · obtain ⟨rfl, hab⟩ := List.append_inj' h rfl
    obtain rfl : a = b := List.head_eq_of_cons_eq hab
    rw [List.nil_append]
  · rw [List.concat_eq_append, ← List.cons_append, ← List.append_assoc] at h
    obtain ⟨rfl, hac⟩ := List.append_inj' h rfl
    obtain rfl : a = c := List.head_eq_of_cons_eq hac
    have hring : a :: (ys ++ b :: zs) = (a :: ys) ++ b :: zs := rfl
    rw [path_rotate hring, List.concat_eq_append, List.append_assoc, List.singleton_append]

omit [DecidableEq N] in
/-- A path only reads the forward pointers of its sources and the backward
pointers of its targets. -/
theorem Path.congr {m m' : Links N} {a b : N} {xs : List N} (h : m.Path a xs b)
    (hnext : ∀ x ∈ a :: xs, m'.next x = m.next x)
    (hprev : ∀ x ∈ xs ++ [b], m'.prev x = m.prev x) :
    m'.Path a xs b := by
  induction xs generalizing a with
  | nil =>
      rw [path_nil] at h ⊢
      rw [hnext a (by simp), hprev b (by simp)]
      exact h
  | cons x xs ih =>
      rw [path_cons] at h ⊢
      refine ⟨?_, ih h.2 (fun y hy => hnext y (by simp [List.mem_cons.mp hy]))
        (fun y hy => hprev y (by simp_all))⟩
      rw [hnext a (by simp), hprev x (by simp)]
      exact h.1

omit [DecidableEq N] in
/-- Two rings at one head that do not pass through the head again have the same
members. -/
theorem Path.unique {m : Links N} {a b : N} {xs ys : List N}
    (hx : m.Path a xs b) (hy : m.Path a ys b) (hbx : b ∉ xs) (hby : b ∉ ys) :
    xs = ys := by
  induction xs generalizing a ys with
  | nil =>
      cases ys with
      | nil => rfl
      | cons y ys =>
          have hb : y = b := hy.1.1.symm.trans hx.1
          exact absurd (by simp [hb]) hby
  | cons x xs ih =>
      cases ys with
      | nil =>
          have hb : x = b := hx.1.1.symm.trans hy.1
          exact absurd (by simp [hb]) hbx
      | cons y ys =>
          have hxy : x = y := hx.1.1.symm.trans hy.1.1
          subst hxy
          rw [ih hx.2 hy.2 (by simp_all) (by simp_all)]

omit [DecidableEq N] in
theorem Path.prev_mem {m : Links N} {a b : N} {xs : List N} (h : m.Path a xs b) :
    m.prev b ∈ a :: xs := by
  induction xs generalizing a with
  | nil => simp [h.2]
  | cons x xs ih => exact List.mem_cons_of_mem a (ih h.2)

omit [DecidableEq N] in
theorem Path.next_mem {m : Links N} {a b : N} {xs : List N} (h : m.Path a xs b) :
    m.next a ∈ xs ++ [b] := by
  cases xs with
  | nil => simp [h.1]
  | cons x xs => simp [h.1.1]

/-! ## The primitive edits on one ring -/

theorem path_insertBefore {m : Links N} {l n : N} {xs : List N}
    (h : m.Path l xs l) (hl : l ∉ xs) (hxs : xs.Nodup) (hnl : n ≠ l) (hn : n ∉ xs) :
    (m.insertBefore l n).Path l (xs ++ [n]) l := by
  rcases List.eq_nil_or_concat xs with rfl | ⟨ys, y, rfl⟩
  · rw [path_nil] at h
    simp [path_cons, path_nil, insertBefore, h, hnl, hnl.symm]
  · simp only [List.concat_eq_append] at h hl hxs hn ⊢
    obtain ⟨hys, hy, hly⟩ := path_concat.mp h
    have hyl : y ≠ l := fun he => hl (by simp [he])
    have hyn : y ≠ n := fun he => hn (by simp [he])
    have hy_ys : y ∉ ys := by
      have := (List.nodup_append.mp hxs).2.2
      exact fun hmem => this y hmem y (by simp) rfl
    rw [List.append_assoc, List.cons_append, List.nil_append, path_append]
    constructor
    · apply hys.congr
      · intro x hx
        have hxy : x ≠ y := by
          rintro rfl
          rcases List.mem_cons.mp hx with rfl | hx
          · exact hyl rfl
          · exact hy_ys hx
        have hxn : x ≠ n := by
          rintro rfl
          rcases List.mem_cons.mp hx with rfl | hx
          · exact hnl rfl
          · exact hn (by simp [hx])
        simp [insertBefore, hly, hxy, hxn]
      · intro x hx
        have hxl : x ≠ l := fun he => hl (he ▸ hx)
        have hxn : x ≠ n := fun he => hn (he ▸ hx)
        simp [insertBefore, hxl, hxn]
    · simp [path_cons, path_nil, insertBefore, hly, hyn, hnl]

theorem path_insertAfter {m : Links N} {l n : N} {xs : List N}
    (h : m.Path l xs l) (hl : l ∉ xs) (hxs : xs.Nodup) (hnl : n ≠ l) (hn : n ∉ xs) :
    (m.insertAfter l n).Path l (n :: xs) l := by
  cases xs with
  | nil =>
      rw [path_nil] at h
      simp [path_cons, path_nil, insertAfter, h, hnl, hnl.symm]
  | cons y ys =>
      obtain ⟨⟨hly, -⟩, hys⟩ := path_cons.mp h
      have hyl : y ≠ l := fun he => hl (by simp [he])
      have hyn : y ≠ n := fun he => hn (by simp [he])
      have hy_ys : y ∉ ys := (List.nodup_cons.mp hxs).1
      rw [path_cons, path_cons]
      refine ⟨?_, ?_, ?_⟩
      · simp [insertAfter]
      · simp [insertAfter, hly, hyn, hnl]
      · apply hys.congr
        · intro x hx
          have hxl : x ≠ l := fun he => hl (he ▸ hx)
          have hxn : x ≠ n := fun he => hn (he ▸ hx)
          simp [insertAfter, hxl, hxn]
        · intro x hx
          have hxy : x ≠ y := by
            rintro rfl
            rcases List.mem_append.mp hx with hx | hx
            · exact hy_ys hx
            · exact hyl (by simpa using hx)
          have hxn : x ≠ n := by
            rintro rfl
            rcases List.mem_append.mp hx with hx | hx
            · exact hn (by simp [hx])
            · exact hnl (by simpa using hx)
          simp [insertAfter, hly, hxy, hxn]

/-- Relinking the neighbours of `n` joins the two parts of a path around it. -/
theorem Path.splice {m m' : Links N} {a b n : N} {ys zs : List N}
    (hys : m.Path a ys n) (hzs : m.Path n zs b)
    (hnext : ∀ x ∈ a :: (ys ++ zs),
      m'.next x = if x = m.prev n then m.next n else m.next x)
    (hprev : ∀ x ∈ ys ++ (zs ++ [b]),
      m'.prev x = if x = m.next n then m.prev n else m.prev x)
    (hsources : (a :: (ys ++ zs)).Nodup) (htargets : (ys ++ (zs ++ [b])).Nodup) :
    m'.Path a (ys ++ zs) b := by
  induction ys generalizing a with
  | nil =>
      obtain ⟨-, ha⟩ := path_nil.mp hys
      cases zs with
      | nil =>
          obtain ⟨hb, -⟩ := path_nil.mp hzs
          rw [List.append_nil, path_nil, hnext a (by simp), hprev b (by simp)]
          simp [ha, hb]
      | cons z zs =>
          obtain ⟨⟨hz, -⟩, hzs⟩ := path_cons.mp hzs
          rw [List.nil_append, path_cons, hnext a (by simp), hprev z (by simp)]
          refine ⟨by simp [ha, hz], hzs.congr ?_ ?_⟩
          · intro x hx
            have hxa : x ≠ a := fun he => (List.nodup_cons.mp hsources).1 (he ▸ hx)
            rw [hnext x (by simp_all), ha, if_neg hxa]
          · intro x hx
            have hxz : x ≠ z := by
              simp only [List.nil_append, List.cons_append, List.nodup_cons] at htargets
              exact fun he => htargets.1 (he ▸ hx)
            rw [hprev x (by simp_all), hz, if_neg hxz]
  | cons y ys ih =>
      obtain ⟨⟨hay, hya⟩, hys⟩ := path_cons.mp hys
      have hpa : a ≠ m.prev n := by
        intro he
        have hmem := hys.prev_mem
        rw [← he] at hmem
        exact (List.nodup_cons.mp hsources).1 (List.mem_append_left zs hmem)
      have hyn : y ≠ m.next n := by
        intro he
        have hmem := hzs.next_mem
        rw [← he] at hmem
        exact (List.nodup_cons.mp htargets).1 (List.mem_append_right ys hmem)
      rw [List.cons_append, path_cons, hnext a (by simp), hprev y (by simp),
        if_neg hpa, if_neg hyn]
      exact ⟨⟨hay, hya⟩, ih hys
        (fun x hx => hnext x (List.mem_cons_of_mem a hx))
        (fun x hx => hprev x (List.mem_cons_of_mem y hx))
        (List.nodup_cons.mp hsources).2 (List.nodup_cons.mp htargets).2⟩

theorem next_remove {m : Links N} {n x : N} (hx : x ≠ n) (hn : m.next n ≠ n) :
    (m.remove n).next x = if x = m.prev n then m.next n else m.next x := by
  simp [remove, hx, hn.symm]

theorem prev_remove {m : Links N} {n x : N} (hx : x ≠ n) :
    (m.remove n).prev x = if x = m.next n then m.prev n else m.prev x := by
  simp [remove, hx]

/-- Taking out the node between two parts of a ring joins the parts. -/
theorem path_remove {m : Links N} {l n : N} {ys zs : List N}
    (h : m.Path l (ys ++ n :: zs) l) (hnd : (l :: (ys ++ n :: zs)).Nodup) :
    (m.remove n).Path l (ys ++ zs) l := by
  obtain ⟨hys, hzs⟩ := path_append.mp h
  have hperm : (l :: (ys ++ n :: zs)).Perm (n :: l :: (ys ++ zs)) :=
    (List.Perm.cons l List.perm_middle).trans (List.Perm.swap n l _)
  obtain ⟨hn, hsources⟩ := List.nodup_cons.mp (hperm.nodup_iff.mp hnd)
  have htargets : (ys ++ (zs ++ [l])).Nodup := by
    rw [← List.append_assoc]
    exact (List.perm_append_singleton l (ys ++ zs)).nodup_iff.mpr hsources
  have hself : m.next n ≠ n := by
    intro he
    have hmem := hzs.next_mem
    rw [he] at hmem
    exact hn (by simp_all)
  refine hys.splice hzs (fun x hx => next_remove ?_ hself) (fun x hx => prev_remove ?_)
    hsources htargets
  · exact fun he => hn (he ▸ hx)
  · exact fun he => hn (by simp_all)

/-- Taking a self-linked node off its list changes no pointer. -/
theorem remove_self {m : Links N} {n : N}
    (hnext : m.next n = n) (hprev : m.prev n = n) : m.remove n = m := by
  apply Links.ext
  · funext x
    by_cases hx : x = n <;> simp [remove, hnext, hprev, hx]
  · funext x
    by_cases hx : x = n <;> simp [remove, hnext, hprev, hx]

theorem Closed.remove {P : N → Prop} {m : Links N} (h : m.Closed P) (n : N) :
    (m.remove n).Closed P := by
  by_cases hn : P n
  · have h₁ := h.setPrev (h.inside n hn).1 (h.inside n hn).2
    have h₂ := h₁.setNext (h₁.inside n hn).2 (h₁.inside n hn).1
    exact (h₂.setPrev hn hn).setNext hn hn
  · rwa [remove_self (h.outside n hn).1 (h.outside n hn).2]

end Links

/-! ## Sequences -/

/-- A partition of the nodes into rings.  `seq h` lists the members of the ring
whose root is `h`, and `home n` names the root of the ring `n` is a member of.  A
root is not a member of any ring, so no node is ever on two lists. -/
structure Rings (N : Type*) where
  seq : N → List N
  home : N → Option N
  nodup : ∀ h, (seq h).Nodup
  mem_seq : ∀ h n, n ∈ seq h ↔ home n = some h
  root : ∀ h, seq h ≠ [] → home h = none

namespace Rings

variable {N : Type*} [DecidableEq N]

/-- Every node linked to itself. -/
def empty : Rings N where
  seq _ := []
  home _ := none
  nodup := by simp
  mem_seq := by simp
  root := by simp

omit [DecidableEq N] in
@[simp] theorem seq_empty (h : N) : (empty : Rings N).seq h = [] := rfl

omit [DecidableEq N] in
@[simp] theorem home_empty (n : N) : (empty : Rings N).home n = none := rfl

omit [DecidableEq N] in
theorem ext_seq {R R' : Rings N} (h : ∀ x, R.seq x = R'.seq x) : R = R' := by
  have hseq : R.seq = R'.seq := funext h
  have hhome : R.home = R'.home := by
    funext n
    apply Option.ext
    intro x
    have hx : n ∈ R.seq x ↔ n ∈ R'.seq x := by rw [hseq]
    simpa [R.mem_seq, R'.mem_seq] using hx
  cases R
  cases R'
  simp_all

omit [DecidableEq N] in
theorem root_notMem (R : Rings N) {h : N} (hh : R.home h = none) (x : N) :
    h ∉ R.seq x := by
  simp [R.mem_seq, hh]

omit [DecidableEq N] in
theorem home_of_seq_eq_cons (R : Rings N) {h x : N} {xs : List N}
    (hs : R.seq h = x :: xs) : R.home x = some h :=
  (R.mem_seq h x).mp (by simp [hs])

/-- `n` is isolated and may be linked on the ring of the root `h`. -/
structure CanLink (R : Rings N) (h n : N) : Prop where
  root : R.home h = none
  free : R.home n = none
  alone : R.seq n = []
  ne : n ≠ h

/-- Make the isolated node `n` a member of the ring of `h`, at the place the new
sequence `xs` gives it. -/
def link (R : Rings N) (h n : N) (xs : List N) (ok : R.CanLink h n)
    (hxs : xs.Perm (n :: R.seq h)) : Rings N where
  seq := Function.update R.seq h xs
  home := Function.update R.home n (some h)
  nodup x := by
    by_cases hx : x = h
    · subst hx
      simpa [hxs.nodup_iff] using ⟨R.root_notMem ok.free x, R.nodup x⟩
    · simpa [hx] using R.nodup x
  mem_seq x y := by
    by_cases hx : x = h
    · subst hx
      by_cases hy : y = n
      · simp [hy, hxs.mem_iff]
      · simp [hy, hxs.mem_iff, R.mem_seq]
    · by_cases hy : y = n
      · subst hy
        simpa [hx, Ne.symm hx] using R.root_notMem ok.free x
      · simp [hx, hy, R.mem_seq]
  root x hx := by
    by_cases hxh : x = h
    · subst hxh
      simpa [ok.ne.symm] using ok.root
    · have hxn : x ≠ n := by
        rintro rfl
        simp [hxh, ok.alone] at hx
      rw [Function.update_of_ne hxn]
      exact R.root x (by simpa [hxh] using hx)

/-- Link `n` as the last member of the ring of `h`. -/
def append (R : Rings N) (h n : N) (ok : R.CanLink h n) : Rings N :=
  R.link h n (R.seq h ++ [n]) ok (List.perm_append_singleton n (R.seq h))

/-- Link `n` as the first member of the ring of `h`. -/
def prepend (R : Rings N) (h n : N) (ok : R.CanLink h n) : Rings N :=
  R.link h n (n :: R.seq h) ok (List.Perm.refl _)

/-- Take `n` off whatever ring it is a member of. -/
def remove (R : Rings N) (n : N) : Rings N where
  seq h := (R.seq h).erase n
  home := Function.update R.home n none
  nodup h := (R.nodup h).erase n
  mem_seq h x := by
    rw [(R.nodup h).mem_erase_iff]
    by_cases hx : x = n
    · simp [hx]
    · simp [hx, R.mem_seq]
  root h hh := by
    by_cases hn : h = n
    · simp [hn]
    · rw [Function.update_of_ne hn]
      refine R.root h (fun he => hh (by simp [he]))

@[simp] theorem seq_append (R : Rings N) (h n x : N) (ok : R.CanLink h n) :
    (R.append h n ok).seq x = if x = h then R.seq h ++ [n] else R.seq x := by
  simp [append, link, Function.update_apply]

@[simp] theorem home_append (R : Rings N) (h n x : N) (ok : R.CanLink h n) :
    (R.append h n ok).home x = if x = n then some h else R.home x := by
  simp [append, link, Function.update_apply]

@[simp] theorem seq_prepend (R : Rings N) (h n x : N) (ok : R.CanLink h n) :
    (R.prepend h n ok).seq x = if x = h then n :: R.seq h else R.seq x := by
  simp [prepend, link, Function.update_apply]

@[simp] theorem home_prepend (R : Rings N) (h n x : N) (ok : R.CanLink h n) :
    (R.prepend h n ok).home x = if x = n then some h else R.home x := by
  simp [prepend, link, Function.update_apply]

@[simp] theorem seq_remove (R : Rings N) (n x : N) :
    (R.remove n).seq x = (R.seq x).erase n := rfl

@[simp] theorem home_remove (R : Rings N) (n x : N) :
    (R.remove n).home x = if x = n then none else R.home x := by
  simp [remove, Function.update_apply]

theorem seq_remove_of_home_ne (R : Rings N) {n x : N} (hx : R.home n ≠ some x) :
    (R.remove n).seq x = R.seq x :=
  List.erase_of_not_mem (by rwa [R.mem_seq])

/-! ## Pointers and sequences -/

/-- The pointers of `m` link exactly the rings of `R`. -/
def Represents (R : Rings N) (m : Links N) : Prop :=
  ∀ h, R.home h = none → m.Path h (R.seq h) h

/-- The root of the ring a node lies on, the node itself for a root. -/
def rootOf (R : Rings N) (x : N) : N :=
  (R.home x).getD x

omit [DecidableEq N] in
theorem rootOf_of_mem (R : Rings N) {h x : N} (hh : R.home h = none)
    (hx : x ∈ h :: R.seq h) : R.rootOf x = h := by
  rcases List.mem_cons.mp hx with rfl | hx
  · simp [rootOf, hh]
  · simp [rootOf, (R.mem_seq h x).mp hx]

section Represents

variable {R : Rings N} {m : Links N}

omit [DecidableEq N] in
theorem nodup_ring (R : Rings N) {h : N} (hh : R.home h = none) :
    (h :: R.seq h).Nodup :=
  List.nodup_cons.mpr ⟨R.root_notMem hh h, R.nodup h⟩

omit [DecidableEq N] in
theorem represents_empty : (empty : Rings N).Represents ⟨id, id⟩ :=
  fun _ _ => ⟨rfl, rfl⟩

omit [DecidableEq N] in
theorem Represents.next_eq_of_seq (hm : R.Represents m) {h x : N} {xs : List N}
    (hs : R.seq h = x :: xs) : m.next h = x := by
  have hp := hm h (R.root h (by simp [hs]))
  rw [hs] at hp
  exact hp.1.1

omit [DecidableEq N] in
theorem Represents.next_root (hm : R.Represents m) {h : N} (hh : R.home h = none) :
    m.next h = (R.seq h).headD h := by
  have hp := hm h hh
  cases hs : R.seq h with
  | nil =>
      rw [hs] at hp
      exact hp.1
  | cons x xs =>
      rw [hs] at hp
      exact hp.1.1

omit [DecidableEq N] in
/-- What follows the first member of a ring. -/
theorem Represents.next_of_seq (hm : R.Represents m) {h x : N} {xs : List N}
    (hs : R.seq h = x :: xs) : m.next x = xs.headD h := by
  have hp := hm h (R.root h (by simp [hs]))
  rw [hs] at hp
  cases xs with
  | nil => exact hp.2.1
  | cons y ys => exact hp.2.1.1

theorem Represents.isEmpty_iff (hm : R.Represents m) {h : N} (hh : R.home h = none) :
    m.isEmpty h = true ↔ R.seq h = [] := by
  have hp := hm h hh
  cases hs : R.seq h with
  | nil =>
      rw [hs] at hp
      simp [Links.isEmpty, hp.1]
  | cons x xs =>
      have hx : R.home x = some h := R.home_of_seq_eq_cons hs
      have hne : x ≠ h := by
        rintro rfl
        simp [hh] at hx
      simp [Links.isEmpty, hm.next_eq_of_seq hs, hne]

omit [DecidableEq N] in
/-- Rings none of whose pointers changed are still linked. -/
theorem Represents.path_congr (hm : R.Represents m) {m' : Links N} {h : N}
    (hh : R.home h = none)
    (hsame : ∀ x, R.rootOf x = h → m'.next x = m.next x ∧ m'.prev x = m.prev x) :
    m'.Path h (R.seq h) h := by
  apply (hm h hh).congr
  · exact fun x hx => (hsame x (R.rootOf_of_mem hh hx)).1
  · intro x hx
    exact (hsame x (R.rootOf_of_mem hh (by simp_all [or_comm]))).2

omit [DecidableEq N] in
theorem rootOf_self {h : N} (hh : R.home h = none) : R.rootOf h = h := by
  simp [rootOf, hh]

omit [DecidableEq N] in
/-- The ring of `h` seen from one of its nodes. -/
theorem Represents.path_from (hm : R.Represents m) {h l : N} {ys zs : List N}
    (hh : R.home h = none) (hl : h :: R.seq h = ys ++ l :: zs) : m.Path l (zs ++ ys) l :=
  (Links.path_rotate hl).mp (hm h hh)

omit [DecidableEq N] in
/-- The neighbours of a node lie on its ring. -/
theorem Represents.rootOf_near (hm : R.Represents m) {h l : N} (hh : R.home h = none)
    (hl : l ∈ h :: R.seq h) : R.rootOf (m.next l) = h ∧ R.rootOf (m.prev l) = h := by
  obtain ⟨ys, zs, hsplit⟩ := List.append_of_mem hl
  have hp := hm.path_from hh hsplit
  have hin : ∀ x ∈ l :: (zs ++ ys), R.rootOf x = h := by
    intro x hx
    apply R.rootOf_of_mem hh
    rw [hsplit]
    simp only [List.mem_append, List.mem_cons] at hx ⊢
    tauto
  constructor
  · apply hin
    have hmem := hp.next_mem
    simp only [List.mem_append, List.mem_cons, List.not_mem_nil, or_false] at hmem ⊢
    tauto
  · exact hin _ hp.prev_mem

/-- What an edit that links `n` on the ring of `h` must do to the pointers. -/
theorem Represents.link (hm : R.Represents m) {m' : Links N} {h n : N} {xs : List N}
    (ok : R.CanLink h n) (hxs : xs.Perm (n :: R.seq h)) (hpath : m'.Path h xs h)
    (hkeep : ∀ x, x ≠ n → R.rootOf x ≠ h → m'.next x = m.next x ∧ m'.prev x = m.prev x) :
    (R.link h n xs ok hxs).Represents m' := by
  intro r hr
  have hrn : r ≠ n := by
    rintro rfl
    simp [Rings.link] at hr
  have hr' : R.home r = none := by simpa [Rings.link, hrn] using hr
  by_cases hrh : r = h
  · subst hrh
    simpa [Rings.link] using hpath
  · have hseq : (R.link h n xs ok hxs).seq r = R.seq r := Function.update_of_ne hrh _ _
    rw [hseq]
    refine hm.path_congr hr' (fun x hx => hkeep x ?_ (hx.trans_ne hrh))
    rintro rfl
    exact hrn (hx.symm.trans (rootOf_self ok.free))

omit [DecidableEq N] in
/-- An isolated node and the nodes of a ring it may be linked on, in any order. -/
theorem CanLink.nodup {h n : N} {ws : List N} (ok : R.CanLink h n)
    (hws : ws.Perm (h :: R.seq h)) : (n :: ws).Nodup := by
  rw [List.nodup_cons, hws.mem_iff, hws.nodup_iff, List.mem_cons, not_or]
  exact ⟨⟨ok.ne, R.root_notMem ok.free h⟩, R.nodup_ring ok.root⟩

/-- Linking `n` before a node of the ring of `h`; behind the last member for `h` itself. -/
theorem Represents.insertBefore_at (hm : R.Represents m) {h n l : N} {xs ys zs : List N}
    (ok : R.CanLink h n) (hl : R.seq h ++ [h] = ys ++ l :: zs)
    (hnew : xs ++ [h] = ys ++ n :: l :: zs) (hxs : xs.Perm (n :: R.seq h)) :
    (R.link h n xs ok hxs).Represents (m.insertBefore l n) := by
  have hrot : (l :: zs ++ ys).Perm (ys ++ l :: zs) := List.perm_append_comm
  have hperm : (l :: (zs ++ ys)).Perm (h :: R.seq h) :=
    hrot.trans (hl ▸ List.perm_append_singleton h (R.seq h))
  obtain ⟨hn, hring⟩ := List.nodup_cons.mp (ok.nodup hperm)
  obtain ⟨hnl, hnws⟩ := List.ne_and_not_mem_of_not_mem_cons hn
  obtain ⟨hlws, hws⟩ := List.nodup_cons.mp hring
  have hlmem : l ∈ h :: R.seq h := hperm.mem_iff.mp List.mem_cons_self
  have hnew' : xs ++ [h] = (ys ++ [n]) ++ l :: zs := by
    rw [hnew, List.append_assoc, List.singleton_append]
  apply hm.link ok hxs
  · rw [Links.path_rotate_concat hnew', ← List.append_assoc]
    exact Links.path_insertBefore ((Links.path_rotate_concat hl).mp (hm h ok.root)) hlws hws
      hnl hnws
  · intro x hxn hxh
    have hxl : x ≠ l := by
      rintro rfl
      exact hxh (R.rootOf_of_mem ok.root hlmem)
    have hxp : x ≠ m.prev l := by
      rintro rfl
      exact hxh (hm.rootOf_near ok.root hlmem).2
    simp [Links.insertBefore, hxn, hxl, hxp]

/-- Linking `n` after a node of the ring of `h`; before the first member for `h` itself. -/
theorem Represents.insertAfter_at (hm : R.Represents m) {h n l : N} {xs ys zs : List N}
    (ok : R.CanLink h n) (hl : h :: R.seq h = ys ++ l :: zs)
    (hnew : h :: xs = ys ++ l :: n :: zs) (hxs : xs.Perm (n :: R.seq h)) :
    (R.link h n xs ok hxs).Represents (m.insertAfter l n) := by
  have hrot : (l :: zs ++ ys).Perm (ys ++ l :: zs) := List.perm_append_comm
  have hperm : (l :: (zs ++ ys)).Perm (h :: R.seq h) := hl ▸ hrot
  obtain ⟨hn, hring⟩ := List.nodup_cons.mp (ok.nodup hperm)
  obtain ⟨hnl, hnws⟩ := List.ne_and_not_mem_of_not_mem_cons hn
  obtain ⟨hlws, hws⟩ := List.nodup_cons.mp hring
  have hlmem : l ∈ h :: R.seq h := hperm.mem_iff.mp List.mem_cons_self
  apply hm.link ok hxs
  · rw [Links.path_rotate hnew]
    exact Links.path_insertAfter (hm.path_from ok.root hl) hlws hws hnl hnws
  · intro x hxn hxh
    have hxl : x ≠ l := by
      rintro rfl
      exact hxh (R.rootOf_of_mem ok.root hlmem)
    have hxp : x ≠ m.next l := by
      rintro rfl
      exact hxh (hm.rootOf_near ok.root hlmem).1
    simp [Links.insertAfter, hxn, hxl, hxp]

theorem Represents.insertBefore (hm : R.Represents m) {h n : N} (ok : R.CanLink h n) :
    (R.append h n ok).Represents (m.insertBefore h n) :=
  hm.insertBefore_at ok rfl (List.append_assoc _ _ _) _

theorem Represents.insertAfter (hm : R.Represents m) {h n : N} (ok : R.CanLink h n) :
    (R.prepend h n ok).Represents (m.insertAfter h n) :=
  hm.insertAfter_at ok (List.nil_append _).symm (List.nil_append _).symm _

theorem Represents.remove (hm : R.Represents m) {n : N} (hn : R.seq n = []) :
    (R.remove n).Represents (m.remove n) := by
  cases hhome : R.home n with
  | none =>
      have hself : m.next n = n ∧ m.prev n = n := by
        simpa [hn, Links.path_nil] using hm n hhome
      rw [Links.remove_self hself.1 hself.2]
      intro r hr
      have hr' : R.home r = none := by
        by_cases hrn : r = n
        · rw [hrn, hhome]
        · simpa [hrn] using hr
      rw [seq_remove_of_home_ne R (by simp [hhome])]
      exact hm r hr'
  | some h =>
      have hh : R.home h = none := R.root h (fun he => by
        have := (R.mem_seq h n).mpr hhome
        simp [he] at this)
      obtain ⟨ys, zs, hsplit⟩ := List.append_of_mem ((R.mem_seq h n).mpr hhome)
      have hnd := R.nodup_ring hh
      have hp := hm h hh
      rw [hsplit] at hnd hp
      intro r hr
      by_cases hrn : r = n
      · subst hrn
        simp [hn, Links.path_nil, Links.remove]
      have hr' : R.home r = none := by simpa [hrn] using hr
      by_cases hrh : r = h
      · subst hrh
        have hys : n ∉ ys := by
          simp only [List.nodup_cons, List.nodup_append] at hnd
          exact fun hmem => hnd.2.2.2 n hmem n (by simp) rfl
        rw [seq_remove, hsplit, List.erase_append_right _ hys, List.erase_cons_head]
        exact Links.path_remove hp hnd
      · rw [seq_remove_of_home_ne R (by simpa [hhome] using Ne.symm hrh)]
        refine hm.path_congr hr' (fun x hx => ?_)
        have hin : ∀ y ∈ h :: R.seq h, x ≠ y := by
          rintro y hy rfl
          exact hrh (hx.symm.trans (R.rootOf_of_mem hh hy))
        rw [hsplit] at hin
        obtain ⟨hys, hzs⟩ := Links.path_append.mp hp
        have hxn : x ≠ n := hin n (by simp)
        have hxp : x ≠ m.prev n := hin _ (by
          have := hys.prev_mem
          simp_all
          tauto)
        have hxs : x ≠ m.next n := hin _ (by
          have := hzs.next_mem
          simp_all
          tauto)
        simp [Links.remove, hxn, hxp, hxs]

/-- Initialising an isolated node changes nothing. -/
theorem Represents.init_eq (hm : R.Represents m) {n : N} (hn : R.home n = none)
    (hs : R.seq n = []) : m.init n = m := by
  have hself : m.next n = n ∧ m.prev n = n := by
    simpa [hs, Links.path_nil] using hm n hn
  apply Links.ext
  · funext x
    by_cases hx : x = n <;> simp [Links.init, hself, hx]
  · funext x
    by_cases hx : x = n <;> simp [Links.init, hself, hx]

theorem Represents.init (hm : R.Represents m) {n : N} (hn : R.home n = none)
    (hs : R.seq n = []) : R.Represents (m.init n) := by
  rwa [hm.init_eq hn hs]

omit [DecidableEq N] in
/-- Once it is fixed which nodes are heads, the pointers determine the rings. -/
theorem Represents.unique {R' : Rings N} (hm : R.Represents m) (hm' : R'.Represents m)
    (Head : N → Prop)
    (hR : ∀ n h, R.home n = some h → Head h ∧ ¬Head n)
    (hR' : ∀ n h, R'.home n = some h → Head h ∧ ¬Head n) : R = R' := by
  have hroot : ∀ {Q : Rings N}, (∀ n h, Q.home n = some h → Head h ∧ ¬Head n) →
      ∀ x, Head x → Q.home x = none := by
    intro Q hQ x hx
    cases hq : Q.home x with
    | none => rfl
    | some h => exact absurd hx (hQ x h hq).2
  have hnil : ∀ {Q : Rings N}, (∀ n h, Q.home n = some h → Head h ∧ ¬Head n) →
      ∀ x, ¬Head x → Q.seq x = [] := by
    intro Q hQ x hx
    cases hq : Q.seq x with
    | nil => rfl
    | cons y ys => exact absurd (hQ y x (Q.home_of_seq_eq_cons hq)).1 hx
  refine ext_seq (fun x => ?_)
  by_cases hx : Head x
  · exact (hm x (hroot hR x hx)).unique (hm' x (hroot hR' x hx))
      (R.root_notMem (hroot hR x hx) x) (R'.root_notMem (hroot hR' x hx) x)
  · rw [hnil hR x hx, hnil hR' x hx]

end Represents
end Rings
end CircularList
