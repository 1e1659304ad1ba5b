/-
Placing the items of a grid (`render-layout/src/solver/grid.rs`).

Items with both coordinates are put where they are declared. Then the items with a row look for a column, those with a
column for a row, and the rest walk along the flow. Each of these passes (`Pass`) tries places one after another
(`Walk`) and takes the first that is free. So what is put by a pass is apart from all that is there (`Laid`), and an item that is
not put has no place left (`RunsOut`). In row flow the number of columns is what it is when the automatic items come: an
item that is wider has no place there, though the grid could grow for it as it does in column flow (`gridExact_iff`).
-/
import Mathlib.Data.Finset.Prod
import Mathlib.Order.Interval.Finset.Nat
import Render.Core.Comp

namespace Render.Layout.GridPlacement

open Render.Core

/-! ## Items -/

/-- the spans are at least one track -/
structure GridItemSpec where
  node : ℕ
  explicitRow : Option ℕ
  rowSpan : ℕ
  explicitColumn : Option ℕ
  columnSpan : ℕ
  rowSpan_pos : 0 < rowSpan
  columnSpan_pos : 0 < columnSpan

inductive GridAutoFlow
  | row
  | column
  | rowDense
  | columnDense
  deriving DecidableEq

namespace GridAutoFlow

def isColumn (flow : GridAutoFlow) : Bool := flow = column || flow = columnDense

def isDense (flow : GridAutoFlow) : Bool := flow = rowDense || flow = columnDense

end GridAutoFlow

inductive LayoutDiagnosticCode
  | gridTrackLimit

structure LayoutDiagnostic where
  node : Option ℕ
  code : LayoutDiagnosticCode
  message : String

/-- `report_grid_track_limit` -/
def gridTrackLimit (source : Option ℕ) : LayoutDiagnostic := ⟨source, .gridTrackLimit, "grid track limit exceeded"⟩

namespace GridItemSpec

variable (spec : GridItemSpec)

def isDefinite : Bool := spec.explicitRow.isSome && spec.explicitColumn.isSome

def isAutomatic : Bool := spec.explicitRow.isNone && spec.explicitColumn.isNone

/-- the cells of the item at a place -/
def area (place : ℕ × ℕ) : Finset (ℕ × ℕ) :=
  Finset.Ico place.1 (place.1 + spec.rowSpan) ×ˢ Finset.Ico place.2 (place.2 + spec.columnSpan)

end GridItemSpec

/-! ## The grid -/

section Placement

variable {Track : Type} (intrinsic : Track)

/-- `grow_grid_columns` -/
def growGridColumns (columns : List Track) (target templateColumnCount : ℕ) (autoColumns : List Track) : List Track :=
  columns ++ (List.range (target - columns.length)).map fun step =>
    (autoColumns[(columns.length + step - templateColumnCount) % autoColumns.length]?).getD intrinsic

/-- what the passes share -/
structure Grid (Track : Type) where
  occupied : Finset (ℕ × ℕ)
  columns : List Track
  placements : List (Option (ℕ × ℕ))

/-- `grid_area_is_free` -/
def Grid.isFree (grid : Grid Track) (spec : GridItemSpec) (place : ℕ × ℕ) : Bool :=
  Disjoint (spec.area place) grid.occupied

/-- the item is placed, and its area occupied (`occupy_grid_area`) -/
def Grid.put (grid : Grid Track) (index : ℕ) (spec : GridItemSpec) (place : ℕ × ℕ) : Grid Track :=
  { grid with
    occupied := grid.occupied ∪ spec.area place
    placements := grid.placements.set index (some place) }

/-! ## Searching for a place -/

/-- the loop over the places of an item -/
structure Walk where
  place : ℕ → ℕ × ℕ
  /-- the place ends past the track limit -/
  exceeds : ℕ → Bool
  /-- the item stays in the flow -/
  within : ℕ → Bool
  /-- the last step that is tried, where the loop counts -/
  bound : Option ℕ

/-- `automatic_position` -/
def automaticPosition (index columnCount : ℕ) : ℕ × ℕ := (index / max columnCount 1, index % max columnCount 1)

/-- the first place that is free, from a step on -/
def Walk.search (walk : Walk) (free : ℕ × ℕ → Bool) : ℕ → ℕ → Option ℕ
  | 0, _ => none
  | fuel + 1, scan =>
    if walk.exceeds scan then none
    else if walk.within scan && free (walk.place scan) then some scan
    else if walk.bound.any (· < scan + 1) then none
    else walk.search free fuel (scan + 1)

/-- a pass over the items -/
structure Pass where
  /-- the items that it places -/
  accepts : GridItemSpec → Bool
  walk : GridItemSpec → Walk
  /-- every item starts at the first step -/
  dense : Bool
  /-- how far the next item starts behind this one -/
  advance : GridItemSpec → ℕ
  /-- there are columns for the items that are placed -/
  grows : Bool

section Passes

variable (limit : ℕ)

/-- a row is declared: the first free column in it -/
def rowLocked : Pass where
  accepts spec := spec.explicitRow.isSome && spec.explicitColumn.isNone
  walk spec :=
    { place column := (spec.explicitRow.getD 0, column)
      exceeds column := limit < column + spec.columnSpan
      within _ := true
      bound := none }
  dense := true
  advance _ := 0
  grows := true

/-- a column is declared: the first free row in it -/
def columnLocked : Pass where
  accepts spec := spec.explicitRow.isNone && spec.explicitColumn.isSome
  walk spec :=
    { place row := (row, spec.explicitColumn.getD 0)
      exceeds row := limit < row + spec.rowSpan
      within _ := true
      bound := none }
  dense := true
  advance _ := 0
  grows := false

/-- the automatic items in column flow: the cells of `flowRows` rows, column by column -/
def columnFlow (flowRows : ℕ) (dense : Bool) : Pass where
  accepts := GridItemSpec.isAutomatic
  walk spec :=
    { place scan := (scan % flowRows, scan / flowRows)
      exceeds scan := limit < scan / flowRows + spec.columnSpan
      within scan := scan % flowRows + spec.rowSpan ≤ flowRows
      bound := some (flowRows * limit) }
  dense := dense
  advance spec := spec.rowSpan
  grows := true

/-- the automatic items in row flow: the cells of `columnCount` columns, row by row -/
def rowFlow (columnCount : ℕ) (dense : Bool) : Pass where
  accepts := GridItemSpec.isAutomatic
  walk spec :=
    { place scan := automaticPosition scan columnCount
      exceeds scan := limit < (automaticPosition scan columnCount).1 + spec.rowSpan
      within scan := (automaticPosition scan columnCount).2 + spec.columnSpan ≤ columnCount
      bound := some (limit * columnCount) }
  dense := dense
  advance spec := spec.columnSpan
  grows := false

end Passes

variable (limit templateColumnCount : ℕ) (autoColumns : List Track) (source : Option ℕ)

/-- the step at which a pass puts an item; `fuel` is more than the steps there are -/
def Pass.step (pass : Pass) (grid : Grid Track) (spec : GridItemSpec) (start : ℕ) : Option ℕ :=
  (pass.walk spec).search (grid.isFree spec) ((pass.walk spec).bound.getD limit + 2) start

/-- the item is put at a step. The columns of the places tried before are not more than those of this one. -/
def Pass.put (pass : Pass) (grid : Grid Track) (index : ℕ) (spec : GridItemSpec) (scan : ℕ) : Grid Track :=
  let place := (pass.walk spec).place scan
  let columns := if pass.grows then
      growGridColumns intrinsic grid.columns (place.2 + spec.columnSpan) templateColumnCount autoColumns
    else grid.columns
  { grid.put index spec place with columns }

/-- the items that a pass accepts, in order -/
def placeEach (pass : Pass) : List (GridItemSpec × ℕ) → Grid Track → ℕ → Except LayoutDiagnostic (Grid Track)
  | [], grid, _ => .ok grid
  | (spec, index) :: rest, grid, cursor =>
    if pass.accepts spec then
      match pass.step limit grid spec (if pass.dense then 0 else cursor) with
      | none => .error (gridTrackLimit source)
      | some scan =>
        placeEach pass rest (pass.put intrinsic templateColumnCount autoColumns grid index spec scan)
          (scan + pass.advance spec)
    else placeEach pass rest grid cursor

/-- the items with both coordinates are where they are declared -/
def placeDefinite : List (GridItemSpec × ℕ) → Grid Track → Grid Track
  | [], grid => grid
  | (spec, index) :: rest, grid =>
    match spec.explicitRow, spec.explicitColumn with
    | some row, some column => placeDefinite rest (grid.put index spec (row, column))
    | _, _ => placeDefinite rest grid

/-- `Iterator::max` over the spans of the automatic items, or one -/
def widest (span : GridItemSpec → ℕ) (specs : List GridItemSpec) : ℕ :=
  (((specs.filter GridItemSpec.isAutomatic).map span).max?).getD 1

/-- the pass of the automatic items -/
def flowPass (specs : List GridItemSpec) (rowCount : ℕ) (flow : GridAutoFlow) (columnCount : ℕ) : Pass :=
  if flow.isColumn then columnFlow limit (max (max rowCount (widest GridItemSpec.rowSpan specs)) 1) flow.isDense
  else rowFlow limit columnCount flow.isDense

/-- `auto_place_grid_items`; the columns are those that the passes have grown -/
def autoPlaceGridItems (specs : List GridItemSpec) (columns : List Track) (rowCount : ℕ) (flow : GridAutoFlow) :
    Except LayoutDiagnostic (Grid Track) := do
  let place := placeEach intrinsic limit templateColumnCount autoColumns source
  let definite := placeDefinite specs.zipIdx ⟨∅, columns, specs.map fun _ => none⟩
  let grid ← place (rowLocked limit) specs.zipIdx definite 0
  let grid ← place (columnLocked limit) specs.zipIdx grid 0
  place (flowPass limit specs rowCount flow (max grid.columns.length 1)) specs.zipIdx grid 0

end Placement

/-! ## Steps -/

/-- the item fits at a step of its walk -/
def Walk.Fits (walk : Walk) (free : ℕ × ℕ → Bool) (scan : ℕ) : Prop :=
  walk.exceeds scan = false ∧ walk.within scan ∧ free (walk.place scan)

/-- the walk goes towards the limit, and has passed it where the loop ends -/
structure Walk.Regular (walk : Walk) (limit : ℕ) : Prop where
  onward : ∀ scan scan', scan ≤ scan' → walk.exceeds scan → walk.exceeds scan'
  ends : walk.exceeds (walk.bound.getD limit)

namespace Walk

variable {walk : Walk} {free : ℕ × ℕ → Bool} {limit fuel start scan : ℕ}

/-- the search takes the first step that fits -/
theorem search_eq_some (h : walk.search free fuel start = some scan) :
    IsLeast {scan | start ≤ scan ∧ walk.Fits free scan} scan := by
  induction fuel generalizing start with
  | zero => cases h
  | succ fuel ih =>
    rw [search] at h
    split_ifs at h with hexceeds hfits hbound
    · cases h
      rw [Bool.and_eq_true] at hfits
      exact ⟨⟨le_rfl, by simpa using hexceeds, hfits⟩, fun _ hstep => hstep.1⟩
    · obtain ⟨⟨hle, hscan⟩, hleast⟩ := ih h
      refine ⟨⟨(Nat.le_succ start).trans hle, hscan⟩, fun step hstep => ?_⟩
      rcases Nat.lt_or_eq_of_le hstep.1 with hlt | rfl
      · exact hleast ⟨hlt, hstep.2⟩
      · exact absurd (Bool.and_eq_true_iff.2 hstep.2.2) hfits

/-- it fails only where no step fits -/
theorem search_eq_none (hregular : walk.Regular limit) {last : ℕ} (hlast : walk.exceeds last) (hstart : start ≤ last)
    (hfuel : last < start + fuel) (h : walk.search free fuel start = none) :
    ∀ scan, start ≤ scan → ¬walk.Fits free scan := by
  induction fuel generalizing start with
  | zero => omega
  | succ fuel ih =>
    rw [search] at h
    split_ifs at h with hexceeds hfits hbound
    · intro scan hscan hfits
      have hpast := hregular.onward start scan hscan hexceeds
      rw [hfits.1] at hpast
      cases hpast
    · -- the loop counts to its end only behind the limit
      have hend := hregular.ends
      cases hsome : walk.bound with
      | none =>
        rw [hsome] at hbound
        cases hbound
      | some bound =>
        rw [hsome, Option.any_some, decide_eq_true_eq] at hbound
        rw [hsome, Option.getD_some] at hend
        exact absurd (hregular.onward bound start (by omega) hend) hexceeds
    · have hne : start ≠ last := by
        rintro rfl
        exact hexceeds hlast
      intro scan hscan hfits'
      rcases Nat.lt_or_eq_of_le hscan with hlt | rfl
      · exact ih (by omega) (by omega) h scan hlt hfits'
      · exact hfits (Bool.and_eq_true_iff.2 hfits'.2)

end Walk

/-! ## Passes -/

section Passes

variable {Track : Type} {limit : ℕ}

/-- a pass goes towards the limit with every item it accepts -/
def Pass.Regular (pass : Pass) (limit : ℕ) : Prop := ∀ spec, (pass.walk spec).Regular limit

theorem rowLocked_regular : (rowLocked limit).Regular limit := fun spec =>
  { onward := fun column column' hle hexceeds => by
      simp only [rowLocked, decide_eq_true_eq] at hexceeds ⊢
      omega
    ends := by
      have hspan := spec.columnSpan_pos
      simp only [rowLocked, Option.getD_none, decide_eq_true_eq]
      omega }

theorem columnLocked_regular : (columnLocked limit).Regular limit := fun spec =>
  { onward := fun row row' hle hexceeds => by
      simp only [columnLocked, decide_eq_true_eq] at hexceeds ⊢
      omega
    ends := by
      have hspan := spec.rowSpan_pos
      simp only [columnLocked, Option.getD_none, decide_eq_true_eq]
      omega }

theorem columnFlow_regular {flowRows : ℕ} (hrows : 0 < flowRows) (dense : Bool) :
    (columnFlow limit flowRows dense).Regular limit := fun spec =>
  { onward := fun scan scan' hle hexceeds => by
      have hdiv := Nat.div_le_div_right (c := flowRows) hle
      simp only [columnFlow, decide_eq_true_eq] at hexceeds ⊢
      omega
    ends := by
      have hspan := spec.columnSpan_pos
      simp only [columnFlow, Option.getD_some, decide_eq_true_eq, Nat.mul_div_cancel_left limit hrows]
      omega }

theorem rowFlow_regular {columnCount : ℕ} (hcolumns : 0 < columnCount) (dense : Bool) :
    (rowFlow limit columnCount dense).Regular limit := fun spec =>
  { onward := fun scan scan' hle hexceeds => by
      have hdiv := Nat.div_le_div_right (c := max columnCount 1) hle
      have hpast : limit < scan / max columnCount 1 + spec.rowSpan := of_decide_eq_true hexceeds
      have hpast' : limit < scan' / max columnCount 1 + spec.rowSpan := by omega
      exact decide_eq_true hpast'
    ends := by
      have hspan := spec.rowSpan_pos
      have hmax : max columnCount 1 = columnCount := by omega
      simp only [rowFlow, automaticPosition, Option.getD_some, decide_eq_true_eq, hmax,
        Nat.mul_div_cancel limit hcolumns]
      omega }

theorem flowPass_regular (specs : List GridItemSpec) (rowCount : ℕ) (flow : GridAutoFlow) {columnCount : ℕ}
    (hcolumns : 0 < columnCount) : (flowPass limit specs rowCount flow columnCount).Regular limit := by
  rw [flowPass]
  split_ifs
  · exact columnFlow_regular (by omega) _
  · exact rowFlow_regular hcolumns _

/-- the places of an item in a pass -/
def Pass.Fits (pass : Pass) (grid : Grid Track) (spec : GridItemSpec) (scan : ℕ) : Prop :=
  (pass.walk spec).Fits (grid.isFree spec) scan

/-- **A pass puts an item at the first step where it fits**, -/
theorem Pass.step_eq_some {pass : Pass} {grid : Grid Track} {spec : GridItemSpec} {start scan : ℕ}
    (h : pass.step limit grid spec start = some scan) : IsLeast {scan | start ≤ scan ∧ pass.Fits grid spec scan} scan :=
  Walk.search_eq_some h

/-- and gives up where it fits nowhere. -/
theorem Pass.step_eq_none {pass : Pass} (hregular : pass.Regular limit) {grid : Grid Track} {spec : GridItemSpec}
    {start : ℕ} : pass.step limit grid spec start = none ↔ ∀ scan, start ≤ scan → ¬pass.Fits grid spec scan := by
  constructor
  · intro h
    have hlast := (hregular spec).onward _ (max start ((pass.walk spec).bound.getD limit)) (Nat.le_max_right ..)
      (hregular spec).ends
    exact Walk.search_eq_none (hregular spec) hlast (Nat.le_max_left ..) (by omega) h
  · intro h
    cases hstep : pass.step limit grid spec start with
    | none => rfl
    | some scan =>
      obtain ⟨hle, hfits⟩ := (Pass.step_eq_some hstep).1
      exact absurd hfits (h scan hle)

end Passes

/-! ## What is placed -/

section Laying

variable {Track : Type}

/-- the item is at a place of the grid -/
def Grid.At (grid : Grid Track) (index : ℕ) (place : ℕ × ℕ) : Prop := grid.placements[index]? = some (some place)

/-- the place has the declared coordinates -/
def GridItemSpec.Keeps (spec : GridItemSpec) (place : ℕ × ℕ) : Prop :=
  (∀ row, spec.explicitRow = some row → place.1 = row) ∧ ∀ column, spec.explicitColumn = some column → place.2 = column

/-- the items that are placed occupy the grid, each where it may be, and what was searched for is apart from the rest -/
structure Laid (specs : List GridItemSpec) (grid : Grid Track) : Prop where
  length : grid.placements.length = specs.length
  occupied : ∀ index spec place, specs[index]? = some spec → grid.At index place → spec.area place ⊆ grid.occupied
  kept : ∀ index spec place, specs[index]? = some spec → grid.At index place → spec.Keeps place
  apart : ∀ i j spec spec' place place', i ≠ j → specs[i]? = some spec → specs[j]? = some spec' → grid.At i place →
    grid.At j place' → spec.isDefinite = false → Disjoint (spec.area place) (spec'.area place')

theorem Grid.at_put {grid : Grid Track} {index : ℕ} {spec : GridItemSpec} {place : ℕ × ℕ} {other : ℕ} {place' : ℕ × ℕ}
    (hindex : index < grid.placements.length) :
    (grid.put index spec place).At other place' ↔
      other = index ∧ place' = place ∨ other ≠ index ∧ grid.At other place' := by
  rw [Grid.At, Grid.put]
  by_cases hother : other = index
  · subst hother
    rw [List.getElem?_set_self hindex]
    simp [eq_comm]
  · rw [List.getElem?_set_ne (Ne.symm hother)]
    simp [hother, Grid.At]

namespace Laid

variable {specs : List GridItemSpec} {grid : Grid Track} {index : ℕ} {spec : GridItemSpec} {place : ℕ × ℕ}

theorem of_columns (h : Laid specs grid) (columns : List Track) : Laid specs { grid with columns } :=
  ⟨h.length, h.occupied, h.kept, h.apart⟩

/-- an item is put where nothing is, or, if both of its coordinates are declared, before all that is searched for -/
theorem put (h : Laid specs grid) (hspec : specs[index]? = some spec) (hkeeps : spec.Keeps place)
    (hfree : Disjoint (spec.area place) grid.occupied ∨ spec.isDefinite ∧
      ∀ other spec' place', specs[other]? = some spec' → grid.At other place' → spec'.isDefinite) :
    Laid specs (grid.put index spec place) := by
  have hindex : index < grid.placements.length := h.length ▸ (List.getElem?_eq_some_iff.1 hspec).1
  refine ⟨?_, ?_, ?_, ?_⟩
  · rw [Grid.put, List.length_set, h.length]
  · intro other spec' place' hspec' hat
    rcases (Grid.at_put hindex).1 hat with ⟨rfl, rfl⟩ | ⟨-, hat⟩
    · rw [hspec] at hspec'
      cases hspec'
      exact Finset.subset_union_right
    · exact (h.occupied other spec' place' hspec' hat).trans Finset.subset_union_left
  · intro other spec' place' hspec' hat
    rcases (Grid.at_put hindex).1 hat with ⟨rfl, rfl⟩ | ⟨-, hat⟩
    · rw [hspec] at hspec'
      cases hspec'
      exact hkeeps
    · exact h.kept other spec' place' hspec' hat
  · intro i j specI specJ placeI placeJ hne hspecI hspecJ hatI hatJ hsearched
    rcases (Grid.at_put hindex).1 hatI with ⟨rfl, rfl⟩ | ⟨-, hbeforeI⟩
    · rw [hspec] at hspecI
      cases hspecI
      rcases (Grid.at_put hindex).1 hatJ with ⟨rfl, -⟩ | ⟨-, hbeforeJ⟩
      · exact absurd rfl hne
      · rcases hfree with hfree | ⟨hdefinite, -⟩
        · exact hfree.mono_right (h.occupied j specJ placeJ hspecJ hbeforeJ)
        · rw [hdefinite] at hsearched
          cases hsearched
    · rcases (Grid.at_put hindex).1 hatJ with ⟨rfl, rfl⟩ | ⟨-, hbeforeJ⟩
      · rw [hspec] at hspecJ
        cases hspecJ
        rcases hfree with hfree | ⟨-, hall⟩
        · exact (hfree.mono_right (h.occupied i specI placeI hspecI hbeforeI)).symm
        · rw [hall i specI placeI hspecI hbeforeI] at hsearched
          cases hsearched
      · exact h.apart i j specI specJ placeI placeJ hne hspecI hspecJ hbeforeI hbeforeJ hsearched

end Laid

/-- the items of a list, each with its index, and no index twice -/
structure Items (specs : List GridItemSpec) (items : List (GridItemSpec × ℕ)) : Prop where
  specs : ∀ spec index, (spec, index) ∈ items → specs[index]? = some spec
  nodup : (items.map Prod.snd).Nodup

namespace Items

variable {specs : List GridItemSpec} {spec : GridItemSpec} {index : ℕ} {items : List (GridItemSpec × ℕ)}

theorem tail (h : Items specs ((spec, index) :: items)) : Items specs items :=
  ⟨fun spec' index' hmem => h.specs spec' index' (List.mem_cons_of_mem _ hmem), (List.nodup_cons.1 h.nodup).2⟩

theorem head (h : Items specs ((spec, index) :: items)) : specs[index]? = some spec :=
  h.specs spec index (List.mem_cons_self ..)

theorem ne (h : Items specs ((spec, index) :: items)) {spec' : GridItemSpec} {index' : ℕ}
    (hmem : (spec', index') ∈ items) : index' ≠ index := by
  rintro rfl
  exact (List.nodup_cons.1 h.nodup).1 (List.mem_map.2 ⟨_, hmem, rfl⟩)

theorem zipIdx (specs : List GridItemSpec) : Items specs specs.zipIdx where
  specs spec index hmem := List.mem_zipIdx_iff_getElem?.1 hmem
  nodup := by
    rw [List.zipIdx_map_snd]
    exact List.nodup_range'

end Items

def Grid.Placed (grid : Grid Track) (index : ℕ) : Prop := ∃ place, grid.At index place

theorem Grid.Placed.put {grid : Grid Track} {index other : ℕ} {spec : GridItemSpec} {place : ℕ × ℕ}
    (hindex : index < grid.placements.length) (h : grid.Placed other ∨ other = index) :
    (grid.put index spec place).Placed other := by
  by_cases hother : other = index
  · exact ⟨place, (Grid.at_put hindex).2 (Or.inl ⟨hother, rfl⟩)⟩
  · obtain ⟨place', hat⟩ := h.resolve_right hother
    exact ⟨place', (Grid.at_put hindex).2 (Or.inr ⟨hother, hat⟩)⟩

/-! ## Runs of the passes -/

variable {specs : List GridItemSpec}

theorem placeDefinite_laid {items : List (GridItemSpec × ℕ)} {grid : Grid Track} (hitems : Items specs items)
    (h : Laid specs grid) (hdefinite : ∀ other spec place, specs[other]? = some spec → grid.At other place →
      spec.isDefinite) :
    Laid specs (placeDefinite items grid) ∧ (∀ index, grid.Placed index → (placeDefinite items grid).Placed index) ∧
      ∀ spec index, (spec, index) ∈ items → spec.isDefinite → (placeDefinite items grid).Placed index := by
  induction items generalizing grid with
  | nil => exact ⟨h, fun _ => id, nofun⟩
  | cons item rest ih =>
    obtain ⟨spec, index⟩ := item
    have hspec := hitems.head
    have hindex : index < grid.placements.length := h.length ▸ (List.getElem?_eq_some_iff.1 hspec).1
    rw [placeDefinite]
    split
    · rename_i row column hrow hcolumn
      have hself : spec.isDefinite := by simp [GridItemSpec.isDefinite, hrow, hcolumn]
      have hkeeps : spec.Keeps (row, column) :=
        ⟨fun row' hrow' => Option.some.inj (hrow.symm.trans hrow'),
          fun column' hcolumn' => Option.some.inj (hcolumn.symm.trans hcolumn')⟩
      obtain ⟨hlaid, hbefore, hrest⟩ := ih hitems.tail (h.put hspec hkeeps (Or.inr ⟨hself, hdefinite⟩))
        fun other spec' place' hspec' hat => by
          rcases (Grid.at_put hindex).1 hat with ⟨rfl, -⟩ | ⟨-, hat⟩
          · rw [hspec] at hspec'
            cases hspec'
            exact hself
          · exact hdefinite other spec' place' hspec' hat
      refine ⟨hlaid, fun other hother => hbefore other (.put hindex (Or.inl hother)),
        fun spec' index' hmem hspec' => ?_⟩
      rcases List.mem_cons.1 hmem with heq | hmem
      · cases heq
        exact hbefore index (.put hindex (Or.inr rfl))
      · exact hrest spec' index' hmem hspec'
    · rename_i hnot
      obtain ⟨hlaid, hbefore, hrest⟩ := ih hitems.tail h hdefinite
      refine ⟨hlaid, hbefore, fun spec' index' hmem hspec' => ?_⟩
      rcases List.mem_cons.1 hmem with heq | hmem
      · cases heq
        obtain ⟨hrow, hcolumn⟩ := Bool.and_eq_true_iff.1 hspec'
        obtain ⟨row, hrow⟩ := Option.isSome_iff_exists.1 hrow
        obtain ⟨column, hcolumn⟩ := Option.isSome_iff_exists.1 hcolumn
        exact absurd hcolumn (hnot row column hrow)
      · exact hrest spec' index' hmem hspec'

section Each

variable {intrinsic : Track} {limit templateColumnCount : ℕ} {autoColumns : List Track} {source : Option ℕ}
  {pass : Pass}

theorem Laid.pass_put {grid : Grid Track} {index : ℕ} {spec : GridItemSpec} {scan : ℕ} (h : Laid specs grid)
    (hspec : specs[index]? = some spec) (hkeeps : spec.Keeps ((pass.walk spec).place scan))
    (hfits : pass.Fits grid spec scan) :
    Laid specs (pass.put intrinsic templateColumnCount autoColumns grid index spec scan) :=
  (h.put hspec hkeeps (Or.inl (of_decide_eq_true hfits.2.2))).of_columns _

theorem placeEach_cons_ok {spec : GridItemSpec} {index cursor : ℕ} {rest : List (GridItemSpec × ℕ)}
    {grid grid' : Grid Track} (haccepts : pass.accepts spec)
    (hok : placeEach intrinsic limit templateColumnCount autoColumns source pass ((spec, index) :: rest) grid cursor =
      .ok grid') :
    ∃ scan, pass.step limit grid spec (if pass.dense then 0 else cursor) = some scan ∧
      placeEach intrinsic limit templateColumnCount autoColumns source pass rest
        (pass.put intrinsic templateColumnCount autoColumns grid index spec scan) (scan + pass.advance spec) =
          .ok grid' := by
  rw [placeEach, if_pos haccepts] at hok
  cases hstep : pass.step limit grid spec (if pass.dense then 0 else cursor) with
  | none =>
    rw [hstep] at hok
    cases hok
  | some scan =>
    rw [hstep] at hok
    exact ⟨scan, rfl, hok⟩

theorem placeEach_laid (hpass : ∀ spec, pass.accepts spec → ∀ scan, spec.Keeps ((pass.walk spec).place scan))
    {items : List (GridItemSpec × ℕ)} {grid grid' : Grid Track} {cursor : ℕ} (hitems : Items specs items)
    (h : Laid specs grid)
    (hok : placeEach intrinsic limit templateColumnCount autoColumns source pass items grid cursor = .ok grid') :
    Laid specs grid' ∧ (∀ index, grid.Placed index → grid'.Placed index) ∧
      ∀ spec index, (spec, index) ∈ items → pass.accepts spec → grid'.Placed index := by
  induction items generalizing grid cursor with
  | nil =>
    cases hok
    exact ⟨h, fun _ => id, nofun⟩
  | cons item rest ih =>
    obtain ⟨spec, index⟩ := item
    have hspec := hitems.head
    have hindex : index < grid.placements.length := h.length ▸ (List.getElem?_eq_some_iff.1 hspec).1
    by_cases haccepts : pass.accepts spec
    · obtain ⟨scan, hstep, hok⟩ := placeEach_cons_ok haccepts hok
      have hlaid : Laid specs (pass.put intrinsic templateColumnCount autoColumns grid index spec scan) :=
        h.pass_put hspec (hpass spec haccepts scan) (Pass.step_eq_some hstep).1.2
      obtain ⟨hlaid, hbefore, hrest⟩ := ih hitems.tail hlaid hok
      have hput (other : ℕ) (hother : grid.Placed other ∨ other = index) : grid'.Placed other := by
        have hplaced : (grid.put index spec ((pass.walk spec).place scan)).Placed other := .put hindex hother
        exact hbefore other hplaced
      refine ⟨hlaid, fun other hother => hput other (Or.inl hother), fun spec' index' hmem haccepts' => ?_⟩
      rcases List.mem_cons.1 hmem with heq | hmem
      · cases heq
        exact hput index (Or.inr rfl)
      · exact hrest spec' index' hmem haccepts'
    · rw [placeEach, if_neg haccepts] at hok
      obtain ⟨hlaid, hbefore, hrest⟩ := ih hitems.tail h hok
      refine ⟨hlaid, hbefore, fun spec' index' hmem haccepts' => ?_⟩
      rcases List.mem_cons.1 hmem with heq | hmem
      · cases heq
        exact absurd haccepts' haccepts
      · exact hrest spec' index' hmem haccepts'

/-- a pass leaves the items of other indices where they are -/
theorem placeEach_at {items : List (GridItemSpec × ℕ)} {grid grid' : Grid Track} {cursor : ℕ}
    (hok : placeEach intrinsic limit templateColumnCount autoColumns source pass items grid cursor = .ok grid')
    {index : ℕ} (hindex : ∀ spec, (spec, index) ∉ items) (place : ℕ × ℕ) :
    grid'.At index place ↔ grid.At index place := by
  induction items generalizing grid cursor with
  | nil =>
    cases hok
    rfl
  | cons item rest ih =>
    obtain ⟨spec, other⟩ := item
    have hrest : ∀ spec, (spec, index) ∉ rest := fun spec hmem => hindex spec (List.mem_cons_of_mem _ hmem)
    by_cases haccepts : pass.accepts spec
    · obtain ⟨scan, hstep, hok⟩ := placeEach_cons_ok haccepts hok
      have hne : other ≠ index := by
        rintro rfl
        exact hindex spec (List.mem_cons_self ..)
      rw [ih hok hrest, Grid.At, Grid.At]
      simp only [Pass.put, Grid.put, List.getElem?_set_ne hne]
    · rw [placeEach, if_neg haccepts] at hok
      exact ih hok hrest

/-- **A sparse pass goes on**: every item is behind the cursor, and behind the items before it. -/
theorem placeEach_sorted (hsparse : pass.dense = false) (hadvance : ∀ spec, 0 < pass.advance spec)
    {items : List (GridItemSpec × ℕ)} {grid grid' : Grid Track} {cursor : ℕ} (hitems : Items specs items)
    (hlength : grid.placements.length = specs.length)
    (hok : placeEach intrinsic limit templateColumnCount autoColumns source pass items grid cursor = .ok grid') :
    (∀ spec index, (spec, index) ∈ items → pass.accepts spec →
      ∃ scan, cursor ≤ scan ∧ grid'.At index ((pass.walk spec).place scan)) ∧
    items.Pairwise fun first second => pass.accepts first.1 → pass.accepts second.1 →
      ∃ scan scan', scan < scan' ∧ grid'.At first.2 ((pass.walk first.1).place scan) ∧
        grid'.At second.2 ((pass.walk second.1).place scan') := by
  induction items generalizing grid cursor with
  | nil => exact ⟨nofun, List.Pairwise.nil⟩
  | cons item rest ih =>
    obtain ⟨spec, index⟩ := item
    by_cases haccepts : pass.accepts spec
    · obtain ⟨scan, hstep, hok⟩ := placeEach_cons_ok haccepts hok
      rw [hsparse] at hstep
      have hcursor : cursor ≤ scan := (Pass.step_eq_some hstep).1.1
      have hput : (pass.put intrinsic templateColumnCount autoColumns grid index spec scan).placements.length =
          specs.length := by
        simp only [Pass.put, Grid.put, List.length_set, hlength]
      obtain ⟨hbehind, hsorted⟩ := ih hitems.tail hput hok
      have hat : grid'.At index ((pass.walk spec).place scan) := by
        rw [placeEach_at hok fun spec' hmem => hitems.ne hmem rfl]
        have hindex := (List.getElem?_eq_some_iff.1 hitems.head).1
        rw [← hlength] at hindex
        have hself : (grid.put index spec ((pass.walk spec).place scan)).At index ((pass.walk spec).place scan) :=
          (Grid.at_put hindex).2 (Or.inl ⟨rfl, rfl⟩)
        exact hself
      have hadvance := hadvance spec
      refine ⟨fun spec' index' hmem haccepts' => ?_, List.pairwise_cons.2 ⟨fun second hmem _ haccepts' => ?_, hsorted⟩⟩
      · rcases List.mem_cons.1 hmem with heq | hmem
        · cases heq
          exact ⟨scan, hcursor, hat⟩
        · obtain ⟨scan', hle, hat'⟩ := hbehind spec' index' hmem haccepts'
          exact ⟨scan', by omega, hat'⟩
      · obtain ⟨scan', hle, hat'⟩ := hbehind second.1 second.2 hmem haccepts'
        exact ⟨scan, scan', by omega, hat, hat'⟩
    · rw [placeEach, if_neg haccepts] at hok
      obtain ⟨hbehind, hsorted⟩ := ih hitems.tail hlength hok
      refine ⟨fun spec' index' hmem haccepts' => ?_,
        List.pairwise_cons.2 ⟨fun _ _ haccepts' => absurd haccepts' haccepts, hsorted⟩⟩
      rcases List.mem_cons.1 hmem with heq | hmem
      · cases heq
        exact absurd haccepts' haccepts
      · exact hbehind spec' index' hmem haccepts'

/-! ## No place left -/

/-- some item of a pass fits nowhere, when it comes -/
inductive RunsOut (intrinsic : Track) (limit templateColumnCount : ℕ) (autoColumns : List Track) (pass : Pass) :
    List (GridItemSpec × ℕ) → Grid Track → ℕ → Prop
  | here {spec : GridItemSpec} {index cursor : ℕ} {rest : List (GridItemSpec × ℕ)} {grid : Grid Track}
      (haccepts : pass.accepts spec)
      (h : ∀ scan, (if pass.dense then 0 else cursor) ≤ scan → ¬pass.Fits grid spec scan) :
      RunsOut intrinsic limit templateColumnCount autoColumns pass ((spec, index) :: rest) grid cursor
  | later {spec : GridItemSpec} {index cursor scan : ℕ} {rest : List (GridItemSpec × ℕ)} {grid : Grid Track}
      (haccepts : pass.accepts spec)
      (hfirst : IsLeast {scan | (if pass.dense then 0 else cursor) ≤ scan ∧ pass.Fits grid spec scan} scan)
      (h : RunsOut intrinsic limit templateColumnCount autoColumns pass rest
        (pass.put intrinsic templateColumnCount autoColumns grid index spec scan) (scan + pass.advance spec)) :
      RunsOut intrinsic limit templateColumnCount autoColumns pass ((spec, index) :: rest) grid cursor
  | skip {spec : GridItemSpec} {index cursor : ℕ} {rest : List (GridItemSpec × ℕ)} {grid : Grid Track}
      (hskips : ¬pass.accepts spec)
      (h : RunsOut intrinsic limit templateColumnCount autoColumns pass rest grid cursor) :
      RunsOut intrinsic limit templateColumnCount autoColumns pass ((spec, index) :: rest) grid cursor

/-- **A pass gives up exactly where some item fits nowhere.** -/
theorem placeEach_error (hregular : pass.Regular limit) {items : List (GridItemSpec × ℕ)} {grid : Grid Track}
    {cursor : ℕ} :
    (∃ diagnostic, placeEach intrinsic limit templateColumnCount autoColumns source pass items grid cursor =
      .error diagnostic) ↔ RunsOut intrinsic limit templateColumnCount autoColumns pass items grid cursor := by
  induction items generalizing grid cursor with
  | nil =>
    refine ⟨fun ⟨_, h⟩ => ?_, nofun⟩
    cases h
  | cons item rest ih =>
    obtain ⟨spec, index⟩ := item
    rw [placeEach]
    by_cases haccepts : pass.accepts spec
    · rw [if_pos haccepts]
      cases hstep : pass.step limit grid spec (if pass.dense then 0 else cursor) with
      | none => exact iff_of_true ⟨_, rfl⟩ (.here haccepts ((Pass.step_eq_none hregular).1 hstep))
      | some scan =>
        have hfirst := Pass.step_eq_some hstep
        dsimp only
        rw [ih]
        constructor
        · exact .later haccepts hfirst
        · intro h
          cases h with
          | here _ h => exact absurd hfirst.1.2 (h scan hfirst.1.1)
          | later _ hfirst' h => rwa [hfirst.unique hfirst']
          | skip hskips _ => exact absurd haccepts hskips
    · rw [if_neg haccepts, ih]
      constructor
      · exact .skip haccepts
      · intro h
        cases h with
        | here haccepts' _ => exact absurd haccepts' haccepts
        | later haccepts' _ _ => exact absurd haccepts' haccepts
        | skip _ h => exact h

end Each

end Laying

/-! ## The grid as a whole -/

/-- a place comes before another along the flow -/
def GridAutoFlow.Before (flow : GridAutoFlow) (place place' : ℕ × ℕ) : Prop :=
  if flow.isColumn then place.2 < place'.2 ∨ place.2 = place'.2 ∧ place.1 < place'.1
  else place.1 < place'.1 ∨ place.1 = place'.1 ∧ place.2 < place'.2

section Whole

variable {Track : Type}

/-- what is asked of the placements -/
structure WellPlaced (specs : List GridItemSpec) (flow : GridAutoFlow) (grid : Grid Track) : Prop where
  /-- every item has a place, with the coordinates that are declared -/
  placed : ∀ index spec, specs[index]? = some spec → ∃ place, grid.At index place ∧ spec.Keeps place
  /-- an item that a coordinate was searched for shares no cell with another -/
  apart : ∀ i j spec spec' place place', i ≠ j → specs[i]? = some spec → specs[j]? = some spec' → grid.At i place →
    grid.At j place' → spec.isDefinite = false → Disjoint (spec.area place) (spec'.area place')
  /-- in sparse flow the automatic items are in the order of the document -/
  ordered : flow.isDense = false → ∀ i j spec spec' place place', i < j → specs[i]? = some spec →
    specs[j]? = some spec' → spec.isAutomatic → spec'.isAutomatic → grid.At i place → grid.At j place' →
    flow.Before place place'

variable (intrinsic : Track) (limit templateColumnCount : ℕ) (autoColumns : List Track) (source : Option ℕ)
  (specs : List GridItemSpec) (columns : List Track) (rowCount : ℕ) (flow : GridAutoFlow)

/-- the grid when the automatic items come, if the passes before have placed theirs -/
def lockedPlaced : Except LayoutDiagnostic (Grid Track) := do
  let definite := placeDefinite specs.zipIdx ⟨∅, columns, specs.map fun _ => none⟩
  let grid ← placeEach intrinsic limit templateColumnCount autoColumns source (rowLocked limit) specs.zipIdx definite 0
  placeEach intrinsic limit templateColumnCount autoColumns source (columnLocked limit) specs.zipIdx grid 0

/-- some item fits nowhere, in a grid whose automatic items have so many columns in row flow -/
def NoRoom (width : Grid Track → ℕ) : Prop :=
  let definite := placeDefinite specs.zipIdx ⟨∅, columns, specs.map fun _ => none⟩
  RunsOut intrinsic limit templateColumnCount autoColumns (rowLocked limit) specs.zipIdx definite 0 ∨
    (∃ grid, placeEach intrinsic limit templateColumnCount autoColumns source (rowLocked limit) specs.zipIdx definite
      0 = .ok grid ∧
        RunsOut intrinsic limit templateColumnCount autoColumns (columnLocked limit) specs.zipIdx grid 0) ∨
    ∃ grid, lockedPlaced intrinsic limit templateColumnCount autoColumns source specs columns = .ok grid ∧
      RunsOut intrinsic limit templateColumnCount autoColumns (flowPass limit specs rowCount flow (width grid))
        specs.zipIdx grid 0

/-- some item is longer than the track limit -/
def Oversized : Prop := ∃ spec ∈ specs, limit < spec.rowSpan ∨ limit < spec.columnSpan

/-- the columns that the automatic items have in row flow -/
def flowColumns (grid : Grid Track) : ℕ := max grid.columns.length 1

/-- the same, if the grid grows for the widest of them, as it does with rows in column flow -/
def grownColumns (grid : Grid Track) : ℕ := max (flowColumns grid) (widest GridItemSpec.columnSpan specs)

/-- what is asked of `auto_place_grid_items`: the placements are right, and it gives up only where an item cannot fit -/
def GridExact : Prop :=
  (∀ grid, autoPlaceGridItems intrinsic limit templateColumnCount autoColumns source specs columns rowCount flow =
      .ok grid → WellPlaced specs flow grid) ∧
    ∀ diagnostic, autoPlaceGridItems intrinsic limit templateColumnCount autoColumns source specs columns rowCount
        flow = .error diagnostic →
      Oversized limit specs ∨ NoRoom intrinsic limit templateColumnCount autoColumns source specs columns rowCount flow
        (grownColumns specs)

variable {intrinsic limit templateColumnCount autoColumns source specs columns rowCount flow}

theorem autoPlaceGridItems_eq :
    autoPlaceGridItems intrinsic limit templateColumnCount autoColumns source specs columns rowCount flow = (do
      let grid ← lockedPlaced intrinsic limit templateColumnCount autoColumns source specs columns
      placeEach intrinsic limit templateColumnCount autoColumns source
        (flowPass limit specs rowCount flow (flowColumns grid)) specs.zipIdx grid 0) := by
  simp only [autoPlaceGridItems, lockedPlaced, flowColumns, bind_assoc]

/-! ## The placements -/

theorem rowLocked_keeps {spec : GridItemSpec} (h : (rowLocked limit).accepts spec) (scan : ℕ) :
    spec.Keeps (((rowLocked limit).walk spec).place scan) := by
  obtain ⟨-, hcolumn⟩ := Bool.and_eq_true_iff.1 h
  refine ⟨fun row hrow => ?_, fun column hsome => ?_⟩
  · simp [rowLocked, hrow]
  · simp [hsome] at hcolumn

theorem columnLocked_keeps {spec : GridItemSpec} (h : (columnLocked limit).accepts spec) (scan : ℕ) :
    spec.Keeps (((columnLocked limit).walk spec).place scan) := by
  obtain ⟨hrow, -⟩ := Bool.and_eq_true_iff.1 h
  refine ⟨fun row hsome => ?_, fun column hcolumn => ?_⟩
  · simp [hsome] at hrow
  · simp [columnLocked, hcolumn]

theorem flowPass_accepts (columnCount : ℕ) :
    (flowPass limit specs rowCount flow columnCount).accepts = GridItemSpec.isAutomatic := by
  rw [flowPass]
  split_ifs <;> rfl

theorem keeps_of_automatic {spec : GridItemSpec} (h : spec.isAutomatic) (place : ℕ × ℕ) : spec.Keeps place := by
  obtain ⟨hrow, hcolumn⟩ := Bool.and_eq_true_iff.1 h
  refine ⟨fun row hsome => ?_, fun column hsome => ?_⟩
  · simp [hsome] at hrow
  · simp [hsome] at hcolumn

theorem laid_empty : Laid specs (⟨∅, columns, specs.map fun _ => none⟩ : Grid Track) ∧
    ∀ index place, ¬(⟨∅, columns, specs.map fun _ => none⟩ : Grid Track).At index place := by
  have hnone : ∀ index place, ¬(⟨∅, columns, specs.map fun _ => none⟩ : Grid Track).At index place := by
    intro index place hat
    simp [Grid.At, List.getElem?_replicate] at hat
  exact ⟨⟨List.length_map .., fun index _ place _ hat => absurd hat (hnone index place),
    fun index _ place _ hat => absurd hat (hnone index place),
    fun i _ _ _ place _ _ _ _ hat => absurd hat (hnone i place)⟩, hnone⟩

/-- an item has both coordinates, one, or none -/
theorem GridItemSpec.kinds (spec : GridItemSpec) :
    spec.isDefinite ∨ (rowLocked limit).accepts spec ∨ (columnLocked limit).accepts spec ∨ spec.isAutomatic := by
  simp only [isDefinite, isAutomatic, rowLocked, columnLocked]
  cases spec.explicitRow <;> cases spec.explicitColumn <;> simp

/-- what the passes before the flow place -/
theorem lockedPlaced_laid {grid : Grid Track}
    (hok : lockedPlaced intrinsic limit templateColumnCount autoColumns source specs columns = .ok grid) :
    Laid specs grid ∧ ∀ index spec, specs[index]? = some spec → spec.isAutomatic ∨ grid.Placed index := by
  obtain ⟨hempty, hnone⟩ := @laid_empty Track specs columns
  obtain ⟨hlaid, -, hdefinite⟩ := placeDefinite_laid (Items.zipIdx specs) hempty
    fun index spec place _ hat => absurd hat (hnone index place)
  obtain ⟨grid', hrows, hcolumns⟩ := bind_eq_ok.1 hok
  obtain ⟨hlaid, hbefore, hplaced⟩ := placeEach_laid (fun _ => rowLocked_keeps) (Items.zipIdx specs) hlaid hrows
  obtain ⟨hlaid, hbefore', hplaced'⟩ := placeEach_laid (fun _ => columnLocked_keeps) (Items.zipIdx specs) hlaid hcolumns
  refine ⟨hlaid, fun index spec hspec => ?_⟩
  have hmem : (spec, index) ∈ specs.zipIdx := List.mem_zipIdx_iff_getElem?.2 hspec
  rcases @GridItemSpec.kinds limit spec with h | h | h | h
  · exact Or.inr (hbefore' index (hbefore index (hdefinite spec index hmem h)))
  · exact Or.inr (hbefore' index (hplaced spec index hmem h))
  · exact Or.inr (hplaced' spec index hmem h)
  · exact Or.inl h

/-- the steps of the flow follow it -/
theorem flowPass_before {columnCount : ℕ} (hcolumns : 0 < columnCount) (spec spec' : GridItemSpec) {scan scan' : ℕ}
    (h : scan < scan') :
    flow.Before (((flowPass limit specs rowCount flow columnCount).walk spec).place scan)
      (((flowPass limit specs rowCount flow columnCount).walk spec').place scan') := by
  have hlex (width : ℕ) : scan / width < scan' / width ∨
      scan / width = scan' / width ∧ scan % width < scan' % width := by
    rcases Nat.lt_or_eq_of_le (Nat.div_le_div_right (c := width) h.le) with hlt | heq
    · exact Or.inl hlt
    · refine Or.inr ⟨heq, ?_⟩
      have hscan := Nat.div_add_mod scan width
      have hscan' := Nat.div_add_mod scan' width
      rw [heq] at hscan
      omega
  rw [GridAutoFlow.Before, flowPass]
  split_ifs
  · exact hlex _
  · have hmax : max columnCount 1 = columnCount := by omega
    simp only [rowFlow, automaticPosition, hmax]
    exact hlex columnCount

/-- **What is returned is well placed.** -/
theorem wellPlaced {grid : Grid Track}
    (hok : autoPlaceGridItems intrinsic limit templateColumnCount autoColumns source specs columns rowCount flow =
      .ok grid) : WellPlaced specs flow grid := by
  rw [autoPlaceGridItems_eq] at hok
  obtain ⟨locked, hlocked, hok⟩ := bind_eq_ok.1 hok
  obtain ⟨hlaid, hplaced⟩ := lockedPlaced_laid hlocked
  have hcolumns : 0 < flowColumns locked := Nat.lt_of_lt_of_le Nat.one_pos (Nat.le_max_right ..)
  have hautomatic {spec : GridItemSpec}
      (h : (flowPass limit specs rowCount flow (flowColumns locked)).accepts spec) : spec.isAutomatic := by
    rwa [flowPass_accepts] at h
  obtain ⟨hlaid', hbefore, hplaced'⟩ := placeEach_laid (fun _ h _ => keeps_of_automatic (hautomatic h) _)
    (Items.zipIdx specs) hlaid hok
  refine ⟨fun index spec hspec => ?_, hlaid'.apart, fun hsparse i j spec spec' place place' hij hi hj hauto hauto' hati
    hatj => ?_⟩
  · have hmem : (spec, index) ∈ specs.zipIdx := List.mem_zipIdx_iff_getElem?.2 hspec
    obtain ⟨place, hat⟩ : grid.Placed index := by
      rcases hplaced index spec hspec with h | h
      · exact hplaced' spec index hmem (by rwa [flowPass_accepts])
      · exact hbefore index h
    exact ⟨place, hat, hlaid'.kept index spec place hspec hat⟩
  · have hnot : (flowPass limit specs rowCount flow (flowColumns locked)).dense = false := by
      rw [flowPass]
      split_ifs <;> exact hsparse
    have hadvance (spec : GridItemSpec) :
        0 < (flowPass limit specs rowCount flow (flowColumns locked)).advance spec := by
      rw [flowPass]
      split_ifs
      · exact spec.rowSpan_pos
      · exact spec.columnSpan_pos
    have hsorted := (placeEach_sorted hnot hadvance (Items.zipIdx specs) hlaid.length hok).2
    rw [List.pairwise_iff_getElem] at hsorted
    have hilt := (List.getElem?_eq_some_iff.1 hi).1
    have hjlt := (List.getElem?_eq_some_iff.1 hj).1
    have hpair := hsorted i j (by rwa [List.length_zipIdx]) (by rwa [List.length_zipIdx]) hij
    simp only [List.getElem_zipIdx, (List.getElem?_eq_some_iff.1 hi).2, (List.getElem?_eq_some_iff.1 hj).2,
      Nat.zero_add, flowPass_accepts] at hpair
    obtain ⟨scan, scan', hlt, hati', hatj'⟩ := hpair hauto hauto'
    rw [Grid.At, hati', Option.some.injEq, Option.some.injEq] at hati
    rw [Grid.At, hatj', Option.some.injEq, Option.some.injEq] at hatj
    rw [← hati, ← hatj]
    exact flowPass_before hcolumns spec spec' hlt

/-! ## Giving up -/

theorem bind_eq_error {ε α β : Type} {x : Except ε α} {f : α → Except ε β} :
    (∃ e, x >>= f = .error e) ↔ (∃ e, x = .error e) ∨ ∃ a, x = .ok a ∧ ∃ e, f a = .error e := by
  cases x with
  | error e => exact iff_of_true ⟨e, rfl⟩ (Or.inl ⟨e, rfl⟩)
  | ok a =>
    constructor
    · exact fun h => Or.inr ⟨a, rfl, h⟩
    · rintro (⟨e, he⟩ | ⟨a', ha, h⟩)
      · cases he
      · cases ha
        exact h

/-- **It gives up exactly where an item fits nowhere**, among the columns there are. -/
theorem autoPlaceGridItems_error :
    (∃ diagnostic, autoPlaceGridItems intrinsic limit templateColumnCount autoColumns source specs columns rowCount
      flow = .error diagnostic) ↔
      NoRoom intrinsic limit templateColumnCount autoColumns source specs columns rowCount flow flowColumns := by
  have hflow (grid : Grid Track) : 0 < flowColumns grid := Nat.lt_of_lt_of_le Nat.one_pos (Nat.le_max_right ..)
  rw [autoPlaceGridItems_eq, bind_eq_error, NoRoom]
  simp only [placeEach_error (flowPass_regular specs rowCount flow (hflow _))]
  rw [lockedPlaced, bind_eq_error, placeEach_error rowLocked_regular, or_assoc]
  simp only [placeEach_error columnLocked_regular]

/-- an item that fits nowhere makes its pass run out -/
theorem RunsOut.of_never {pass : Pass} {items : List (GridItemSpec × ℕ)} {grid : Grid Track} {cursor : ℕ}
    {spec : GridItemSpec} {index : ℕ} (hmem : (spec, index) ∈ items) (haccepts : pass.accepts spec)
    (hnever : ∀ (grid : Grid Track) (scan : ℕ), ¬pass.Fits grid spec scan) :
    RunsOut intrinsic limit templateColumnCount autoColumns pass items grid cursor := by
  induction items generalizing grid cursor with
  | nil => cases hmem
  | cons item rest ih =>
    obtain ⟨spec', index'⟩ := item
    rcases List.mem_cons.1 hmem with heq | hmem
    · cases heq
      exact .here haccepts fun scan _ => hnever grid scan
    · by_cases haccepts' : pass.accepts spec'
      · by_cases hfits : ∃ scan, (if pass.dense then 0 else cursor) ≤ scan ∧ pass.Fits grid spec' scan
        · classical
          exact .later haccepts' ⟨Nat.find_spec hfits, fun _ => Nat.find_min' hfits⟩ (ih hmem)
        · exact .here haccepts' fun scan hle h => hfits ⟨scan, hle, h⟩
      · exact .skip haccepts' (ih hmem)

/-- in row flow an item that is wider than the grid fits nowhere -/
theorem rowFlow_never {columnCount : ℕ} {dense : Bool} {spec : GridItemSpec} (hwide : columnCount < spec.columnSpan)
    (grid : Grid Track) (scan : ℕ) : ¬(rowFlow limit columnCount dense).Fits grid spec scan := by
  rintro ⟨-, hwithin, -⟩
  have hends : (automaticPosition scan columnCount).2 + spec.columnSpan ≤ columnCount := of_decide_eq_true hwithin
  omega

theorem widest_le {span : GridItemSpec → ℕ} {bound : ℕ} (hpos : 0 < bound)
    (h : ∀ spec ∈ specs, spec.isAutomatic → span spec ≤ bound) : widest span specs ≤ bound := by
  rw [widest]
  cases hmax : ((specs.filter GridItemSpec.isAutomatic).map span).max? with
  | none => exact hpos
  | some longest =>
    have hmem := List.max?_mem hmax
    obtain ⟨spec, hspec, rfl⟩ := List.mem_map.1 hmem
    exact h spec (List.mem_filter.1 hspec).1 (List.mem_filter.1 hspec).2

/-- **A grid is placed right, or given up for good**, unless an automatic item in row flow is wider than the columns
there are when its turn comes, and would fit in a grid that grew for it. -/
theorem gridExact_iff :
    GridExact intrinsic limit templateColumnCount autoColumns source specs columns rowCount flow ↔
      flow.isColumn ∨
      (∀ grid, lockedPlaced intrinsic limit templateColumnCount autoColumns source specs columns = .ok grid →
        ∀ spec ∈ specs, spec.isAutomatic → spec.columnSpan ≤ flowColumns grid) ∨
      Oversized limit specs ∨
      NoRoom intrinsic limit templateColumnCount autoColumns source specs columns rowCount flow
        (grownColumns specs) := by
  constructor
  · rintro ⟨-, hgives⟩
    by_contra hnot
    rw [not_or, not_or] at hnot
    obtain ⟨hrow, hwide, hroom⟩ := hnot
    push Not at hwide
    obtain ⟨grid, hlocked, spec, hspec, hautomatic, hwide⟩ := hwide
    obtain ⟨index, hindex, hget⟩ := List.getElem_of_mem hspec
    have hmem : (spec, index) ∈ specs.zipIdx :=
      List.mem_zipIdx_iff_getElem?.2 (List.getElem?_eq_some_iff.2 ⟨hindex, hget⟩)
    have hpass : flowPass limit specs rowCount flow (flowColumns grid) =
        rowFlow limit (flowColumns grid) flow.isDense := if_neg hrow
    have hcode : NoRoom intrinsic limit templateColumnCount autoColumns source specs columns rowCount flow
        flowColumns := by
      refine Or.inr (Or.inr ⟨grid, hlocked, ?_⟩)
      rw [hpass]
      exact .of_never hmem hautomatic (rowFlow_never hwide)
    obtain ⟨diagnostic, herror⟩ := autoPlaceGridItems_error.2 hcode
    exact hroom (hgives diagnostic herror)
  · intro h
    refine ⟨fun grid => wellPlaced, fun diagnostic herror => ?_⟩
    have hcode := autoPlaceGridItems_error.1 ⟨diagnostic, herror⟩
    rcases h with hcolumn | hwide | hroom
    · refine Or.inr ?_
      simpa only [NoRoom, flowPass, if_pos hcolumn] using hcode
    · refine Or.inr ?_
      rcases hcode with hrow | hcolumns | ⟨grid, hlocked, hruns⟩
      · exact Or.inl hrow
      · exact Or.inr (Or.inl hcolumns)
      · have hsame : grownColumns specs grid = flowColumns grid :=
          Nat.max_eq_left (widest_le (Nat.lt_of_lt_of_le Nat.one_pos (Nat.le_max_right ..)) (hwide grid hlocked))
        exact Or.inr (Or.inr ⟨grid, hlocked, by rwa [hsame]⟩)
    · exact hroom

end Whole

/-- one item that spans two columns -/
def wideItem : GridItemSpec := ⟨0, none, 1, none, 2, by decide, by decide⟩

/-- a template of one column is given up -/
theorem not_gridExact : ¬∀ (limit : ℕ) (specs : List GridItemSpec) (columns : List Unit) (rowCount : ℕ)
    (flow : GridAutoFlow), GridExact () limit columns.length [] none specs columns rowCount flow := by
  intro hall
  have hexact := (hall 10 [wideItem] [()] 1 .row).2 (gridTrackLimit none) rfl
  rcases hexact with ⟨spec, hspec, hlong⟩ | hrow | ⟨grid, hgrid, hcolumns⟩ | ⟨grid, hgrid, hruns⟩
  · rw [List.mem_singleton.1 hspec] at hlong
    exact absurd hlong (by decide)
  · cases hrow with
    | here haccepts _ => cases haccepts
    | later haccepts _ _ => cases haccepts
    | skip _ h => cases h
  · cases hcolumns with
    | here haccepts _ => cases haccepts
    | later haccepts _ _ => cases haccepts
    | skip _ h => cases h
  · cases hgrid
    cases hruns with
    | here _ h => exact h 0 le_rfl ⟨by decide, by decide, by decide⟩
    | later _ _ h => cases h
    | skip hskips _ => exact hskips rfl

end Render.Layout.GridPlacement
