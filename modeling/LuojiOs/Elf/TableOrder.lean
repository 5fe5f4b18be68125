import LuojiOs.Elf.SymbolReading
import LuojiOs.Support.Smallest

/-!
# The order in which tables are read

The loop over the tables of `elfreadsyms` takes the one with the smallest offset, and marks it by
another offset.  It goes on for ever where two offsets are the same, and where one lies behind the
mark, unless a table cannot be read before; and where a table is put to memory that is not there.
-/

namespace LuojiOs

namespace Elf

open Loops Smallest

/-! ## The tables as things to take -/

/-- The names of the sections, the symbols, and their names. -/
inductive Table
  | names
  | syms
  | strings
  deriving DecidableEq

instance : Nontrivial Table := ⟨.names, .syms, by decide⟩

/-- Whether a table at this offset of the file can be read to a place, unless it is put to memory
that is not there. -/
def outcomeAt (file : ElfFile) (mapped : BitVec 32 → Bool) (base size offs : BitVec 32) :
    Option Bool :=
  if file.lseek offs then
    if Mapped mapped base (file.read offs size).toNat then
      some (decide (file.read offs size = size.toInt ∧ base ≠ 0))
    else none
  else some false

/-- The memory with a table that has been read. -/
def putTable (file : ElfFile) (base size offs : BitVec 32) (mem : Memory) : Memory :=
  mem.fill base (file.read offs size).toNat fun k => file.content (offs.toNat + k)

/-- The tables, with the names and the sizes of the sections. -/
def Tables.things (tables : Tables) (file : ElfFile) (mapped : BitVec 32 → Bool)
    (name size : ℕ → BitVec 32) : Things Table (Fin (2 ^ 32)) Memory where
  all := [.names, .syms, .strings]
  complete t := by cases t <;> decide
  nodup := by decide
  mark := READ.toFin
  outcome
    | .names, _ => if tables.NamesMapped name size mapped then some true else none
    | .syms, offs => outcomeAt file mapped tables.symtab tables.size ⟨offs⟩
    | .strings, offs => outcomeAt file mapped tables.strtab (size tables.strh) ⟨offs⟩
  act
    | .names, _ => tables.putNames name size
    | .syms, offs => putTable file tables.symtab tables.size ⟨offs⟩
    | .strings, offs => putTable file tables.strtab (size tables.strh) ⟨offs⟩

variable {file : ElfFile} {mapped : BitVec 32 → Bool} {tables : Tables} {r r' : Reading}
  {name size : ℕ → BitVec 32} {i j : ℕ}

theorem readtable_mem {base size offs : BitVec 32} {s : Loader} :
    (readtable file mapped offs base size s).map (fun x => if x.1 then some x.2.mem else none) =
      (outcomeAt file mapped base size offs).map fun ok =>
        if ok then some (putTable file base size offs s.mem) else none := by
  unfold readtable outcomeAt Loader.lseek
  by_cases hseek : file.lseek offs = true
  · rw [if_pos hseek, if_pos hseek]
    dsimp only
    by_cases hmapped : Mapped mapped base (file.read offs size).toNat
    · rw [if_pos hmapped, if_pos hmapped]
      rfl
    · rw [if_neg hmapped, if_neg hmapped]
      rfl
  · rw [if_neg hseek, if_neg hseek]
    rfl

namespace Reading

/-- The offsets of the tables. -/
def places (tables : Tables) (r : Reading) : Table → Fin (2 ^ 32)
  | .names => (r.shstrOffset tables).toFin
  | .syms => r.offs.toFin
  | .strings => (r.strOffset tables).toFin

def toState (tables : Tables) (r : Reading) : State Table (Fin (2 ^ 32)) Memory :=
  ⟨r.places tables, r.loader.mem⟩

/-- What a table has been read with, without the rest if it has failed. -/
def view (tables : Tables) (x : Bool × Reading) : Option (State Table (Fin (2 ^ 32)) Memory) :=
  if x.1 then some (x.2.toState tables) else none

/-! ### Headers that are marked -/

theorem shOffset_mark :
    ((r.mark i).shtab j).shOffset = if j = i then READ else (r.shtab j).shOffset := by
  unfold mark
  dsimp only
  by_cases hj : j = i
  · rw [if_pos hj, hj, Function.update_self]
  · rw [if_neg hj, Function.update_of_ne hj]

theorem name_mark : (r.mark i).name = r.name := by
  funext j
  unfold name mark
  dsimp only
  by_cases hj : j = i
  · rw [hj, Function.update_self]
  · rw [Function.update_of_ne hj]

theorem size_mark : (r.mark i).size = r.size := by
  funext j
  unfold size mark
  dsimp only
  by_cases hj : j = i
  · rw [hj, Function.update_self]
  · rw [Function.update_of_ne hj]

theorem places_mark_names (h : r.shstrOffset tables ≠ r.strOffset tables) :
    (r.mark tables.shstrh).places tables =
      Function.update (r.places tables) .names READ.toFin := by
  have hne : tables.strh ≠ tables.shstrh := fun heq => h (by unfold shstrOffset strOffset; rw [heq])
  funext t
  cases t with
  | names =>
      rw [Function.update_self]
      exact congrArg BitVec.toFin (shOffset_mark.trans (if_pos rfl))
  | syms => rfl
  | strings => exact congrArg BitVec.toFin (shOffset_mark.trans (if_neg hne))

theorem places_read_syms {loader : Loader} :
    places tables { r with loader := loader, offs := READ } =
      Function.update (r.places tables) .syms READ.toFin := by
  funext t
  cases t with
  | names => rfl
  | syms => rw [Function.update_self, places]
  | strings => rfl

theorem places_mark_strings (h : r.shstrOffset tables ≠ r.strOffset tables) :
    (r.mark tables.strh).places tables =
      Function.update (r.places tables) .strings READ.toFin := by
  have hne : tables.shstrh ≠ tables.strh := fun heq => h (by unfold shstrOffset strOffset; rw [heq])
  funext t
  cases t with
  | names => exact congrArg BitVec.toFin (shOffset_mark.trans (if_neg hne))
  | syms => rfl
  | strings =>
      rw [Function.update_self]
      exact congrArg BitVec.toFin (shOffset_mark.trans (if_pos rfl))

/-! ### The three steps of a round -/

theorem first_names : First (r.places tables) .names ↔
    r.shstrOffset tables < r.offs ∧ r.shstrOffset tables < r.strOffset tables := by
  constructor
  · exact fun h => ⟨h .syms nofun, h .strings nofun⟩
  · rintro ⟨hsyms, hstrings⟩ u hu
    cases u with
    | names => exact absurd rfl hu
    | syms => exact hsyms
    | strings => exact hstrings

theorem first_syms : First (r.places tables) .syms ↔
    r.offs < r.strOffset tables ∧ r.offs < r.shstrOffset tables := by
  constructor
  · exact fun h => ⟨h .strings nofun, h .names nofun⟩
  · rintro ⟨hstrings, hnames⟩ u hu
    cases u with
    | names => exact hnames
    | syms => exact absurd rfl hu
    | strings => exact hstrings

theorem first_strings : First (r.places tables) .strings ↔
    r.strOffset tables < r.offs ∧ r.strOffset tables < r.shstrOffset tables := by
  constructor
  · exact fun h => ⟨h .syms nofun, h .names nofun⟩
  · rintro ⟨hsyms, hnames⟩ u hu
    cases u with
    | names => exact hnames
    | syms => exact hsyms
    | strings => exact absurd rfl hu

/-- The names and the sizes of the sections are these. -/
def Fields (name size : ℕ → BitVec 32) (r : Reading) : Prop := r.name = name ∧ r.size = size

theorem Fields.mark (h : r.Fields name size) : (r.mark i).Fields name size :=
  ⟨name_mark.trans h.1, size_mark.trans h.2⟩

theorem Fields.names (h : r.Fields name size) (hr : r.writeNames mapped tables = some r') :
    r'.Fields name size := by
  unfold writeNames at hr
  split at hr
  · split at hr
    · cases hr
      exact Fields.mark h
    · cases hr
  · cases hr
    exact h

theorem Fields.syms {ok : Bool} (h : r.Fields name size)
    (hr : r.readSyms file mapped tables = some (ok, r')) : r'.Fields name size := by
  unfold readSyms at hr
  split at hr
  · split at hr <;> cases hr <;> exact h
  · cases hr
    exact h

theorem Fields.strings {ok : Bool} (h : r.Fields name size)
    (hr : r.readStrings file mapped tables = some (ok, r')) : r'.Fields name size := by
  unfold readStrings at hr
  split at hr
  · split at hr
    · cases hr
    · cases hr
      exact h
    · cases hr
      exact Fields.mark h
  · cases hr
    exact h

theorem writeNames_look (h : r.Fields name size) :
    (r.writeNames mapped tables).map (fun r => some (r.toState tables)) =
      (tables.things file mapped name size).look .names (r.toState tables) := by
  obtain ⟨rfl, rfl⟩ := h
  unfold writeNames
  by_cases hfirst : r.shstrOffset tables < r.offs ∧ r.shstrOffset tables < r.strOffset tables
  · rw [if_pos hfirst, Things.look_of_first (s := r.toState tables) (first_names.mpr hfirst)]
    have hne : r.shstrOffset tables ≠ r.strOffset tables := fun heq =>
      BitVec.lt_irrefl _ (heq ▸ hfirst.2)
    change _ = Option.map _ (if tables.NamesMapped r.name r.size mapped then some true else none)
    by_cases hmapped : tables.NamesMapped r.name r.size mapped
    · rw [if_pos hmapped, if_pos hmapped]
      exact congrArg (fun p => some (some (State.mk p (tables.putNames r.name r.size r.loader.mem))))
        (@places_mark_names tables { r with loader := _ } hne)
    · rw [if_neg hmapped, if_neg hmapped]
      rfl
  · rw [if_neg hfirst, Things.look_of_not (s := r.toState tables) fun h => hfirst (first_names.mp h)]
    rfl

/-- A state is made of what a table is read with. -/
theorem map_mk {p : Table → Fin (2 ^ 32)} {mem : Memory} {out : Option Bool} :
    (out.map fun ok => if ok then some (State.mk p mem) else none) =
      (out.map fun ok => if ok then some mem else none).map (Option.map (State.mk p)) := by
  rcases out with _ | _ | _ <;> rfl

theorem readSyms_look (h : r.Fields name size) :
    (r.readSyms file mapped tables).map (view tables) =
      (tables.things file mapped name size).look .syms (r.toState tables) := by
  obtain ⟨rfl, rfl⟩ := h
  unfold readSyms
  by_cases hfirst : r.offs < r.strOffset tables ∧ r.offs < r.shstrOffset tables
  · rw [if_pos hfirst, Things.look_of_first (s := r.toState tables) (first_syms.mpr hfirst)]
    refine Eq.trans ?_ map_mk.symm
    refine Eq.trans ?_ (congrArg (Option.map (Option.map (State.mk _)))
      (@readtable_mem file mapped tables.symtab tables.size r.offs r.loader))
    rcases readtable file mapped r.offs tables.symtab tables.size r.loader with
      _ | ⟨_ | _, loader⟩
    · rfl
    · rfl
    · exact congrArg (fun p => some (some (State.mk p loader.mem))) places_read_syms
  · rw [if_neg hfirst, Things.look_of_not (s := r.toState tables) fun h => hfirst (first_syms.mp h)]
    rfl

theorem readStrings_look (h : r.Fields name size) :
    (r.readStrings file mapped tables).map (view tables) =
      (tables.things file mapped name size).look .strings (r.toState tables) := by
  obtain ⟨rfl, rfl⟩ := h
  unfold readStrings
  by_cases hfirst : r.strOffset tables < r.offs ∧ r.strOffset tables < r.shstrOffset tables
  · rw [if_pos hfirst, Things.look_of_first (s := r.toState tables) (first_strings.mpr hfirst)]
    have hne : r.shstrOffset tables ≠ r.strOffset tables := fun heq =>
      BitVec.lt_irrefl _ (heq ▸ hfirst.2)
    refine Eq.trans ?_ map_mk.symm
    refine Eq.trans ?_ (congrArg (Option.map (Option.map (State.mk _)))
      (@readtable_mem file mapped tables.strtab (r.size tables.strh) (r.strOffset tables) r.loader))
    rcases readtable file mapped (r.strOffset tables) tables.strtab (r.size tables.strh) r.loader
      with _ | ⟨_ | _, loader⟩
    · rfl
    · rfl
    · exact congrArg (fun p => some (some (State.mk p loader.mem)))
        (@places_mark_strings tables { r with loader := loader } hne)
  · rw [if_neg hfirst,
      Things.look_of_not (s := r.toState tables) fun h => hfirst (first_strings.mp h)]
    rfl

/-! ### The round -/

theorem allRead_iff :
    (∀ t ∈ [Table.names, .syms, .strings], r.places tables t = READ.toFin) ↔ r.AllRead tables := by
  constructor
  · intro h
    exact ⟨BitVec.toFin_inj.mp (h .syms (by decide)), BitVec.toFin_inj.mp (h .strings (by decide)),
      BitVec.toFin_inj.mp (h .names (by decide))⟩
  · rintro ⟨hsyms, hstrings, hnames⟩ t -
    cases t with
    | names => exact congrArg BitVec.toFin hnames
    | syms => exact congrArg BitVec.toFin hsyms
    | strings => exact congrArg BitVec.toFin hstrings

/-- A round is one in which the table with the smallest offset is taken. -/
theorem tableRound_round (h : r.Fields name size) :
    Sum.map (view tables) (toState tables) (tableRound file mapped tables r) =
      (tables.things file mapped name size).round (r.toState tables) := by
  have hnames := @writeNames_look file mapped tables r name size h
  unfold tableRound
  rcases hw : r.writeNames mapped tables with _ | r₁
  · rw [hw] at hnames
    exact (Things.round_of_none (Things.looks_of_none hnames.symm)).symm
  · rw [hw] at hnames
    have hfields := h.names hw
    have hsyms := @readSyms_look file mapped tables r₁ name size hfields
    dsimp only
    rcases hr : r₁.readSyms file mapped tables with _ | ⟨_ | _, r₂⟩
    · rw [hr] at hsyms
      exact (Things.round_of_none ((Things.looks_cons hnames.symm).trans
        (Things.looks_of_none hsyms.symm))).symm
    · rw [hr] at hsyms
      exact (Things.round_of_fails ((Things.looks_cons hnames.symm).trans
        (Things.looks_of_fails hsyms.symm))).symm
    · rw [hr] at hsyms
      have hfields₂ := hfields.syms hr
      have hstrings := @readStrings_look file mapped tables r₂ name size hfields₂
      dsimp only
      rcases hs : r₂.readStrings file mapped tables with _ | ⟨_ | _, r₃⟩
      · rw [hs] at hstrings
        exact (Things.round_of_none ((Things.looks_cons hnames.symm).trans
          ((Things.looks_cons hsyms.symm).trans (Things.looks_of_none hstrings.symm)))).symm
      · rw [hs] at hstrings
        exact (Things.round_of_fails ((Things.looks_cons hnames.symm).trans
          ((Things.looks_cons hsyms.symm).trans (Things.looks_of_fails hstrings.symm)))).symm
      · rw [hs] at hstrings
        dsimp only
        refine Eq.trans ?_ (Things.round_of_looks ((Things.looks_cons hnames.symm).trans
          ((Things.looks_cons hsyms.symm).trans (Things.looks_cons hstrings.symm)))).symm
        by_cases hall : r₃.AllRead tables
        · rw [if_pos hall]
          exact (if_pos (allRead_iff.mpr hall)).symm
        · rw [if_neg hall]
          exact (if_neg (mt allRead_iff.mp hall)).symm

/-- A round does not come back, or fails, or it makes its three steps. -/
theorem tableRound_cases (file : ElfFile) (mapped : BitVec 32 → Bool) (tables : Tables)
    (r : Reading) :
    tableRound file mapped tables r = .inr r ∨
    (∃ r', tableRound file mapped tables r = .inl (false, r')) ∨
    ∃ r₁ r₂ r₃, r.writeNames mapped tables = some r₁ ∧
      r₁.readSyms file mapped tables = some (true, r₂) ∧
      r₂.readStrings file mapped tables = some (true, r₃) ∧
      tableRound file mapped tables r =
        if r₃.AllRead tables then .inl (true, r₃) else .inr r₃ := by
  unfold tableRound
  rcases hw : r.writeNames mapped tables with _ | r₁
  · exact Or.inl rfl
  · dsimp only
    rcases hr : r₁.readSyms file mapped tables with _ | ⟨_ | _, r₂⟩
    · exact Or.inl rfl
    · exact Or.inr (Or.inl ⟨r₂, rfl⟩)
    · dsimp only
      rcases hs : r₂.readStrings file mapped tables with _ | ⟨_ | _, r₃⟩
      · exact Or.inl rfl
      · exact Or.inr (Or.inl ⟨r₃, rfl⟩)
      · exact Or.inr (Or.inr ⟨r₁, r₂, r₃, rfl, hr, hs, rfl⟩)

/-- What the rounds keep. -/
theorem Fields.next (h : r.Fields name size)
    (hround : tableRound file mapped tables r = .inr r') : r'.Fields name size := by
  obtain hstay | ⟨r₁, hfail⟩ | ⟨r₁, r₂, r₃, hnames, hsyms, hstrings, heq⟩ :=
    tableRound_cases file mapped tables r
  · rw [hround] at hstay
    cases hstay
    exact h
  · rw [hround] at hfail
    cases hfail
  · rw [hround] at heq
    split at heq
    · cases heq
    · cases heq
      exact ((h.names hnames).syms hsyms).strings hstrings

theorem Fields.last (h : r.Fields name size)
    (hround : tableRound file mapped tables r = .inl (true, r')) : r'.Fields name size := by
  obtain hstay | ⟨r₁, hfail⟩ | ⟨r₁, r₂, r₃, hnames, hsyms, hstrings, heq⟩ :=
    tableRound_cases file mapped tables r
  · rw [hround] at hstay
    cases hstay
  · rw [hround] at hfail
    cases hfail
  · rw [hround] at heq
    split at heq
    · cases heq
      exact ((h.names hnames).syms hsyms).strings hstrings
    · cases heq

theorem Fields.run {rounds : ℕ} (h : r.Fields name size)
    (hrun : run (tableRound file mapped tables) rounds r = some (true, r')) :
    r'.Fields name size := by
  refine run_invariant (P := Fields name size)
    (Q := fun x => x.1 = true → x.2.Fields name size) (fun _ _ => Fields.next) ?_ h hrun rfl
  rintro s ⟨ok, s'⟩ hs hround rfl
  exact hs.last hround

/-- The loop over the tables is one that takes the first thing, and again. -/
theorem run_round {rounds : ℕ} (h : r.Fields name size) :
    (run (tableRound file mapped tables) rounds r).map (view tables) =
      run (tables.things file mapped name size).round rounds (r.toState tables) :=
  run_map (P := Fields name size) (fun _ => tableRound_round) (fun _ _ => Fields.next) h

end Reading

/-- Whether the loop ends can be seen from the offsets that it begins with. -/
theorem tables_end_iff :
    (∃ rounds x, run (tableRound file mapped tables) rounds r = some x) ↔
      (tables.things file mapped r.name r.size).Ends (r.places tables) := by
  refine Iff.trans ?_ (Things.ends_iff (s := r.toState tables))
  refine exists_congr fun rounds => ?_
  rw [← @Reading.run_round file mapped tables r _ _ rounds ⟨rfl, rfl⟩]
  cases run (tableRound file mapped tables) rounds r with
  | none => exact iff_of_false nofun nofun
  | some x => exact iff_of_true ⟨x, rfl⟩ ⟨Reading.view tables x, rfl⟩

/-- At the end all tables have been put to the memory, in the order of their offsets. -/
theorem leads_of_run {rounds : ℕ}
    (hrun : run (tableRound file mapped tables) rounds r = some (true, r')) :
    (tables.things file mapped r.name r.size).Leads (r.toState tables) r'.loader.mem := by
  have hview := @Reading.run_round file mapped tables r _ _ rounds ⟨rfl, rfl⟩
  rw [hrun] at hview
  exact Things.leads_of_run hview.symm

/-- When a table cannot be read, not all tables can be taken. -/
theorem not_taken_of_run {rounds : ℕ}
    (hrun : run (tableRound file mapped tables) rounds r = some (false, r')) :
    ¬(tables.things file mapped r.name r.size).Taken (r.places tables) := by
  have hview := @Reading.run_round file mapped tables r _ _ rounds ⟨rfl, rfl⟩
  rw [hrun] at hview
  exact Things.not_taken_of_run (s := r.toState tables) hview.symm

end Elf

end LuojiOs
