import LuojiOs.Mtd.Mtdfile
import LuojiOs.Support.Runs
import LuojiOs.Support.TailList

/-!
# The list of partitions

`add_mtd_device` and `del_mtd_device`, down to the pointers of the list `mtdfiles`.  A result is
`none` where a function uses an entry that is not allocated, or where its loop does not end.
What is printed is left out, and so is the pointer `goodpart0`, which only the branches for a
NOR flash use.
-/

namespace LuojiOs

namespace Mtd

open TailList

/-- `struct mtdfile`, with the flash it lies on. -/
structure Entry where
  mtd : ℕ
  file : Mtdfile
  deriving DecidableEq

/-- The entry of an address, for those that are allocated, and the pointers `i_next` of each. -/
structure Devices where
  entries : ℕ → Option Entry
  links : Links ℕ
  lhFirst : Option ℕ
  mtdidx : ℕ

/-- What `add_mtd_device` puts into an entry. -/
def newEntry (mtdidx mtd mtdSize : ℕ) (offset size : ℤ) (name : CString) : Entry where
  mtd := mtd
  file :=
    { refs := 0
      index := mtdidx
      partSize := if size ≠ 0 then uint32 size else uint32 (mtdSize - offset)
      partOffset := uint32 offset
      name := name }

namespace Devices

/-- Nothing has been added. -/
def init : Devices := ⟨fun _ => none, ⟨fun _ => none, fun _ => 0⟩, none, 0⟩

/-! ## The pointers -/

section Pointers

variable (s : Devices)

def next (p : ℕ) : Option (Option ℕ) := (s.entries p).map fun _ => s.links.next p

def prev (p : ℕ) : Option ℕ := (s.entries p).map fun _ => s.links.prev p

def assignNext (p : ℕ) (v : Option ℕ) : Option Devices :=
  (s.entries p).map fun _ => { s with links := s.links.setNext p v }

def assignPrev (p v : ℕ) : Option Devices :=
  (s.entries p).map fun _ => { s with links := s.links.setPrev p v }

/-- `LIST_INSERT_BEFORE` -/
def insertBefore (listelm elm : ℕ) : Option Devices := do
  let s ← s.assignPrev elm (← s.prev listelm)
  let s ← s.assignNext elm (some listelm)
  let s ← s.assignNext (← s.prev listelm) (some elm)
  s.assignPrev listelm elm

/-- `LIST_REMOVE` -/
def remove (elm : ℕ) : Option Devices := do
  let s ← match ← s.next elm with
    | some next => s.assignPrev next (← s.prev elm)
    | none => some s
  s.assignNext (← s.prev elm) (← s.next elm)

/-- `malloc` and `memset`, with the index of the new entry. -/
def allocate (rmp : ℕ) (entry : Entry) : Devices where
  entries := Function.update s.entries rmp (some entry)
  links := (s.links.setNext rmp none).setPrev rmp 0
  lhFirst := s.lhFirst
  mtdidx := s.mtdidx + 1

def free (rmp : ℕ) : Devices := { s with entries := Function.update s.entries rmp none }

end Pointers

/-! ## The functions -/

/-- `add_mtd_device`, where `rmp` is what `malloc` returns. -/
def addMtdDevice (rmp : Option ℕ) (mtd mtdSize : ℕ) (offset size : ℤ) (name : CString)
    (s : Devices) : Option (ℤ × Devices) :=
  match rmp with
  -- `NULL` is returned, which is 0 too
  | none => some (0, s)
  | some rmp => do
    let s := s.allocate rmp (newEntry s.mtdidx mtd mtdSize offset size name)
    match s.lhFirst with
    | none =>
      let s ← s.assignNext rmp none
      let s ← s.assignPrev rmp rmp
      some (0, { s with lhFirst := some rmp })
    | some first =>
      let s ← s.assignNext (← s.prev first) (some first)
      let s ← s.insertBefore first rmp
      let s ← s.assignNext (← s.prev first) none
      some (0, s)

/-- The loop of `del_mtd_device`, up to the first entry of a flash.  No more than `mtdidx` entries
have been made, and a loop that takes more rounds takes them forever. -/
def find (s : Devices) (mtd : ℕ) : ℕ → Option ℕ → Option (Option ℕ)
  | 0, _ => none
  | _ + 1, none => some none
  | rounds + 1, some rmp => (s.entries rmp).bind fun entry =>
    if entry.mtd = mtd then some (some rmp) else find s mtd rounds (s.links.next rmp)

/-- `del_mtd_device` -/
def delMtdDevice (mtd : ℕ) (s : Devices) : Option (ℤ × Devices) := do
  match ← s.find mtd (s.mtdidx + 1) s.lhFirst with
  | none => some (-1, s)
  | some rmp =>
    let entry ← s.entries rmp
    if entry.file.refs = 0 then
      let s ← s.remove rmp
      some (0, s.free rmp)
    else some (-1, s)

/-- A loop over the list, with the entries that it passes. -/
def traverse (s : Devices) : ℕ → Option ℕ → Option (List (ℕ × Entry))
  | 0, _ => none
  | _ + 1, none => some []
  | rounds + 1, some rmp => (s.entries rmp).bind fun entry =>
    (traverse s rounds (s.links.next rmp)).map ((rmp, entry) :: ·)

end Devices

/-- A call, with what `malloc` returns in it.  `mtdfile_open` and `mtdfile_close` change the
number of users of an entry. -/
inductive Call
  | add (rmp : Option ℕ) (mtd mtdSize : ℕ) (offset size : ℤ) (name : CString)
  | del (mtd : ℕ)
  | use (rmp : ℕ) (refs : ℤ)

/-- An entry with its address. -/
abbrev Part := ℕ × Entry

def Entry.withRefs (entry : Entry) (refs : ℤ) : Entry :=
  { entry with file := { entry.file with refs := refs } }

namespace Call

def step (s : Devices) : Call → Option Devices
  | .add rmp mtd mtdSize offset size name =>
    (s.addMtdDevice rmp mtd mtdSize offset size name).map (·.2)
  | .del mtd => (s.delMtdDevice mtd).map (·.2)
  | .use rmp refs => (s.entries rmp).map fun entry =>
    { s with entries := Function.update s.entries rmp (some (entry.withRefs refs)) }

/-- What a call is to do with the entries that have been added and not removed, in the order of
addition. -/
def apply (mtdidx : ℕ) (parts : List Part) : Call → List Part
  | .add none _ _ _ _ _ => parts
  | .add (some rmp) mtd mtdSize offset size name =>
    parts ++ [(rmp, newEntry mtdidx mtd mtdSize offset size name)]
  | .del mtd =>
    match parts.find? (·.2.mtd = mtd) with
    | none => parts
    | some part => if part.2.file.refs = 0 then parts.erase part else parts
  | .use rmp refs => parts.map fun part =>
    if part.1 = rmp then (part.1, part.2.withRefs refs) else part

theorem step_add {s : Devices} {rmp : Option ℕ} {mtd mtdSize : ℕ} {offset size : ℤ}
    {name : CString} : step s (.add rmp mtd mtdSize offset size name) =
      (s.addMtdDevice rmp mtd mtdSize offset size name).map (·.2) := rfl

theorem step_del {s : Devices} {mtd : ℕ} : step s (.del mtd) = (s.delMtdDevice mtd).map (·.2) :=
  rfl

theorem step_use {s : Devices} {rmp : ℕ} {refs : ℤ} : step s (.use rmp refs) =
    (s.entries rmp).map fun entry =>
      { s with entries := Function.update s.entries rmp (some (entry.withRefs refs)) } := rfl

theorem apply_del {mtdidx mtd : ℕ} {parts : List Part} : apply mtdidx parts (.del mtd) =
    match parts.find? (·.2.mtd = mtd) with
    | none => parts
    | some part => if part.2.file.refs = 0 then parts.erase part else parts := rfl

/-- `malloc` returns memory that is not in use, and only an entry in the list is opened. -/
def Fresh (s : Devices) : Call → Prop
  | .add (some rmp) _ _ _ _ _ => s.entries rmp = none
  | .use rmp _ => (s.entries rmp).isSome = true
  | _ => True

instance (s : Devices) : DecidablePred (Fresh s)
  | .add none _ _ _ _ _ => .isTrue trivial
  | .add (some rmp) _ _ _ _ _ => inferInstanceAs (Decidable (s.entries rmp = none))
  | .del _ => .isTrue trivial
  | .use rmp _ => inferInstanceAs (Decidable ((s.entries rmp).isSome = true))

/-- The entry that `del_mtd_device` removes is neither the first nor the last one. -/
def SparesEnds (parts : List Part) : Call → Prop
  | .del mtd => ∀ part, parts.find? (·.2.mtd = mtd) = some part → part.2.file.refs = 0 →
    parts.head? ≠ some part ∧ parts.getLast? ≠ some part
  | _ => True

instance (parts : List Part) : DecidablePred (SparesEnds parts)
  | .add _ _ _ _ _ _ => .isTrue trivial
  | .del mtd =>
    match h : parts.find? (·.2.mtd = mtd) with
    | none => .isTrue fun part hpart => by cases h.symm.trans hpart
    | some part =>
      decidable_of_iff (part.2.file.refs = 0 →
          parts.head? ≠ some part ∧ parts.getLast? ≠ some part)
        ⟨fun hspares part' hpart => Option.some.inj (h.symm.trans hpart) ▸ hspares,
          fun hspares => hspares part h⟩
  | .use _ _ => .isTrue trivial

end Call

/-- The list in memory, beside the entries that it should hold. -/
structure Registry where
  devices : Devices
  parts : List Part

namespace Registry

def init : Registry := ⟨.init, []⟩

def step (r : Registry) (call : Call) : Option Registry :=
  (call.step r.devices).map fun s => ⟨s, call.apply r.devices.mtdidx r.parts⟩

end Registry

end Mtd

end LuojiOs
