/-
The grid of a table (`render-layout/src/solver/table.rs`).

A cell goes into the first column behind the cell before it that no earlier row spans (`RowPlaced`); this says where every
cell goes, so `table_grid` computes nothing else (`tableGrid_iff`). Its numbers are 64 bits wide. A row span is cut at the
last row of the table, and nothing cuts it at the last row of its group.
-/
import Render.Net.Text

namespace Render.Layout.TableGrid

open Render.Net

/-! ## The source -/

/-- `span_attribute` -/
def spanAttribute (value : Option Chars) : ℕ := ((value.bind fun text => text.trim.parseU64).filter (0 < ·)).getD 1

structure Cell where
  colspan : Option Chars
  rowspan : Option Chars

/-- a row with the group it is in -/
structure TableRow where
  group : Option ℕ
  cells : List Cell

structure CellPlacement where
  column : ℕ
  columnSpan : ℕ
  rowSpan : ℕ

/-- the column behind a cell -/
def CellPlacement.stop (p : CellPlacement) : ℕ := p.column + p.columnSpan

/-- a set of columns, as the ranges it was made of -/
abbrev Ranges := List (ℕ × ℕ)

def Ranges.covers (ranges : Ranges) (column : ℕ) : Bool := ranges.any fun range => range.1 ≤ column && column < range.2

def Ranges.limit (ranges : Ranges) : ℕ := ranges.foldr (fun range limit => max range.2 limit) 0

theorem Ranges.lt_limit {ranges : Ranges} {column : ℕ} (h : ranges.covers column = true) : column < ranges.limit := by
  induction ranges with
  | nil => cases h
  | cons range ranges ih =>
    rw [limit, List.foldr_cons, lt_max_iff]
    rw [covers, List.any_cons, Bool.or_eq_true] at h
    exact h.imp (fun hrange => by simpa using (Bool.and_eq_true_iff.1 hrange).2) ih

/-- `while spanned[index].contains(&column)` -/
def firstFree (ranges : Ranges) (column : ℕ) : ℕ :=
  if ranges.covers column then firstFree ranges (column + 1) else column
termination_by ranges.limit - column
decreasing_by
  have := Ranges.lt_limit ‹_›
  omega

/-- an addition of `usize` -/
def add (a b : ℕ) : Option ℕ := if a + b < 2 ^ 64 then some (a + b) else none

/-- a cell is in the columns of its row and of the rows it spans below -/
def span (spanned : List Ranges) (p : CellPlacement) : List Ranges :=
  (spanned.take p.rowSpan).map ((p.column, p.stop) :: ·) ++ spanned.drop p.rowSpan

/-- the cells of a row; `spanned` begins with the row -/
def gridRow (spanned : List Ranges) (column : ℕ) : List Cell → Option (List CellPlacement × List Ranges)
  | [] => some ([], spanned)
  | cell :: cells => do
    let columnSpan := spanAttribute cell.colspan
    let rowSpan := min (spanAttribute cell.rowspan) spanned.length
    let column := firstFree (spanned.getD 0 []) column
    let next ← add column columnSpan
    let (later, spanned) ← gridRow (span spanned ⟨column, columnSpan, rowSpan⟩) next cells
    return (⟨column, columnSpan, rowSpan⟩ :: later, spanned)

def gridRows (spanned : List Ranges) : List TableRow → Option (List (List CellPlacement))
  | [] => some []
  | row :: rows => do
    let (cells, spanned) ← gridRow spanned 0 row.cells
    let later ← gridRows spanned.tail rows
    return cells :: later

def columnsOf (grid : List (List CellPlacement)) : ℕ := grid.flatten.foldr (fun p columns => max columns p.stop) 0

/-- `table_grid` -/
def tableGrid (rows : List TableRow) : Option (List (List CellPlacement) × ℕ) := do
  let grid ← gridRows (rows.map fun _ => []) rows
  return (grid, columnsOf grid)

/-- a column box, with its width if it has one -/
structure ColumnBox (W : Type) where
  span : Option Chars
  width : Option W

/-- `apply_column_box_widths`; `widen` is the arithmetic of one width, in floating point -/
def applyColumnBoxWidths {W : Type} (widen : ℕ → W → Option W → Option W) (columns column : ℕ) (fixed : List (Option W)) :
    List (ColumnBox W) → Option (List (Option W))
  | [] => some fixed
  | box :: boxes => do
    let span := max (spanAttribute box.span) 1
    let fixed ← match box.width with
      | none => some fixed
      | some width =>
        if columns < column then none
        else some (fixed.mapIdx fun index slot =>
          if column ≤ index ∧ index < column + min span (columns - column) then widen span width slot else slot)
    let next ← add column span
    applyColumnBoxWidths widen columns next fixed boxes

/-! ## Where the cells go -/

/-- the first column from `start` on that is not covered -/
structure First (covered : ℕ → Prop) (start column : ℕ) : Prop where
  le : start ≤ column
  free : ¬covered column
  before (other : ℕ) (h : start ≤ other) (hlt : other < column) : covered other

/-- the cells of a row with `remaining` rows from it on -/
def RowPlaced (covered : ℕ → Prop) (remaining : ℕ) : ℕ → List Cell → List CellPlacement → Prop
  | _, [], [] => True
  | start, cell :: cells, p :: places =>
    (p.columnSpan = spanAttribute cell.colspan ∧ p.rowSpan = min (spanAttribute cell.rowspan) remaining ∧
      First covered start p.column) ∧ RowPlaced covered remaining p.stop cells places
  | _, _, _ => False

/-- the cells of rows; earlier rows cover columns of the row `k` rows on -/
def GridPlaced : (covered : ℕ → ℕ → Prop) → List TableRow → List (List CellPlacement) → Prop
  | _, [], [] => True
  | covered, row :: rows, places :: grid =>
    RowPlaced (covered 0) (rows.length + 1) 0 row.cells places ∧
      GridPlaced (fun k column => covered (k + 1) column ∨
        ∃ p ∈ places, k + 1 < p.rowSpan ∧ p.column ≤ column ∧ column < p.stop) rows grid
  | _, _, _ => False

/-- every cell stops below 2^64 -/
def Narrow (grid : List (List CellPlacement)) : Prop := ∀ places ∈ grid, ∀ p ∈ places, p.stop < 2 ^ 64

theorem firstFree_first (ranges : Ranges) (start : ℕ) :
    First (fun column => ranges.covers column = true) start (firstFree ranges start) := by
  fun_induction firstFree ranges start with
  | case1 start hcovers ih =>
    refine ⟨(Nat.le_succ _).trans ih.le, ih.free, fun other h hlt => ?_⟩
    rcases h.eq_or_lt with rfl | hlater
    · exact hcovers
    · exact ih.before other hlater hlt
  | case2 start hfree => exact ⟨le_rfl, hfree, fun other h hlt => absurd hlt (not_lt.2 h)⟩

theorem First.unique {covered : ℕ → Prop} {start a b : ℕ} (ha : First covered start a) (hb : First covered start b) :
    a = b := by
  rcases lt_trichotomy a b with hlt | heq | hlt
  · exact absurd (hb.before a ha.le hlt) ha.free
  · exact heq
  · exact absurd (ha.before b hb.le hlt) hb.free

theorem First.congr {covered covered' : ℕ → Prop} {start column : ℕ} (h : First covered start column)
    (hsame : ∀ other, start ≤ other → (covered other ↔ covered' other)) : First covered' start column where
  le := h.le
  free := fun hcovered => h.free ((hsame column h.le).2 hcovered)
  before other hle hlt := (hsame other hle).1 (h.before other hle hlt)

/-! ## Running over the rows -/

@[simp] theorem span_length (spanned : List Ranges) (p : CellPlacement) : (span spanned p).length = spanned.length := by
  simp only [span, List.length_append, List.length_map, List.length_take, List.length_drop]
  omega

theorem covers_span {spanned : List Ranges} (p : CellPlacement) {k : ℕ} (hk : k < spanned.length) (column : ℕ) :
    ((span spanned p).getD k []).covers column = true ↔
      (spanned.getD k []).covers column = true ∨ k < p.rowSpan ∧ p.column ≤ column ∧ column < p.stop := by
  by_cases hspan : k < p.rowSpan
  · have hget : (span spanned p).getD k [] = (p.column, p.stop) :: spanned.getD k [] := by
      simp [span, List.getD_eq_getElem?_getD, List.getElem?_append, hk, hspan]
    rw [hget, Ranges.covers, List.any_cons, Bool.or_eq_true, or_comm]
    simp [hspan, Ranges.covers]
  · have hget : (span spanned p).getD k [] = spanned.getD k [] := by
      have hshift : p.rowSpan + (k - p.rowSpan) = k := by omega
      simp only [span, List.getD_eq_getElem?_getD, List.getElem?_append, List.length_map, List.length_take]
      rw [if_neg (by omega), List.getElem?_drop]
      congr 2
      omega
    rw [hget]
    simp only [hspan, false_and, or_false]

theorem covers_foldl {spanned : List Ranges} (placed : List CellPlacement) {k : ℕ} (hk : k < spanned.length) (column : ℕ) :
    ((placed.foldl span spanned).getD k []).covers column = true ↔ (spanned.getD k []).covers column = true ∨
      ∃ p ∈ placed, k < p.rowSpan ∧ p.column ≤ column ∧ column < p.stop := by
  induction placed generalizing spanned with
  | nil => simp
  | cons p placed ih =>
    rw [List.foldl_cons, ih (by rwa [span_length]), covers_span p hk, or_assoc]
    simp only [List.exists_mem_cons_iff]

theorem foldl_length (placed : List CellPlacement) (spanned : List Ranges) :
    (placed.foldl span spanned).length = spanned.length := by
  induction placed generalizing spanned with
  | nil => rfl
  | cons p placed ih => rw [List.foldl_cons, ih, span_length]

/-- where a row puts its next cell -/
def nextCell (spanned : List Ranges) (start : ℕ) (cell : Cell) : CellPlacement :=
  ⟨firstFree (spanned.getD 0 []) start, spanAttribute cell.colspan, min (spanAttribute cell.rowspan) spanned.length⟩

theorem gridRow_cons {spanned spanned' : List Ranges} {start : ℕ} {cell : Cell} {cells : List Cell}
    {placed : List CellPlacement} :
    gridRow spanned start (cell :: cells) = some (placed, spanned') ↔
      (nextCell spanned start cell).stop < 2 ^ 64 ∧ ∃ later, placed = nextCell spanned start cell :: later ∧
        gridRow (span spanned (nextCell spanned start cell)) (nextCell spanned start cell).stop cells =
          some (later, spanned') := by
  by_cases hstop : (nextCell spanned start cell).stop < 2 ^ 64
  · have hadd : add (firstFree (spanned.getD 0 []) start) (spanAttribute cell.colspan) =
        some (nextCell spanned start cell).stop := if_pos hstop
    simp only [gridRow, hadd, Option.bind_eq_bind, Option.bind_some, hstop, true_and]
    rw [show (⟨firstFree (spanned.getD 0 []) start, spanAttribute cell.colspan,
      min (spanAttribute cell.rowspan) spanned.length⟩ : CellPlacement) = nextCell spanned start cell from rfl]
    cases gridRow (span spanned (nextCell spanned start cell)) (nextCell spanned start cell).stop cells with
    | none => simp
    | some rest => simp [Prod.ext_iff, eq_comm, and_comm]
  · have hadd : add (firstFree (spanned.getD 0 []) start) (spanAttribute cell.colspan) = none := if_neg hstop
    simp only [gridRow, hadd, Option.bind_eq_bind, Option.bind_none, hstop, false_and, reduceCtorEq]

/-- the cells of a row are where they are placed, if they stop below 2^64 -/
theorem gridRow_iff {covered : ℕ → Prop} {spanned spanned' : List Ranges} {start : ℕ} {cells : List Cell}
    {placed : List CellPlacement} (hne : 0 < spanned.length)
    (hcovered : ∀ column, start ≤ column → ((spanned.getD 0 []).covers column = true ↔ covered column)) :
    gridRow spanned start cells = some (placed, spanned') ↔
      RowPlaced covered spanned.length start cells placed ∧ (∀ p ∈ placed, p.stop < 2 ^ 64) ∧
        spanned' = placed.foldl span spanned := by
  induction cells generalizing spanned start placed with
  | nil =>
    cases placed with
    | nil => simp [gridRow, RowPlaced, eq_comm]
    | cons p placed => simp [gridRow, RowPlaced]
  | cons cell cells ih =>
    have hfirst : First covered start (nextCell spanned start cell).column :=
      (firstFree_first (spanned.getD 0 []) start).congr hcovered
    -- the columns behind the cell are not the cell's own
    have hbehind : ∀ column, (nextCell spanned start cell).stop ≤ column →
        (((span spanned (nextCell spanned start cell)).getD 0 []).covers column = true ↔ covered column) := by
      intro column hle
      have hfar : start ≤ column := hfirst.le.trans ((Nat.le_add_right _ _).trans hle)
      rw [covers_span _ hne, hcovered column hfar]
      simp only [not_lt.2 hle, and_false, or_false]
    have hih := fun later => @ih _ _ later (by rwa [span_length]) hbehind
    rw [gridRow_cons]
    simp only [hih, span_length]
    constructor
    · rintro ⟨hstop, later, rfl, hrow, hnarrow, rfl⟩
      exact ⟨⟨⟨rfl, rfl, hfirst⟩, hrow⟩, List.forall_mem_cons.2 ⟨hstop, hnarrow⟩, rfl⟩
    · intro ⟨hrow, hnarrow, hspanned⟩
      cases placed with
      | nil => exact hrow.elim
      | cons p later =>
        obtain ⟨⟨hcolumns, hrows, hplace⟩, hrow⟩ := hrow
        obtain ⟨hstop, hlater⟩ := List.forall_mem_cons.1 hnarrow
        have hcolumn := hplace.unique hfirst
        obtain ⟨column, columnSpan, rowSpan⟩ := p
        obtain rfl : column = (nextCell spanned start cell).column := hcolumn
        obtain rfl : columnSpan = spanAttribute cell.colspan := hcolumns
        obtain rfl : rowSpan = min (spanAttribute cell.rowspan) spanned.length := hrows
        exact ⟨hstop, later, rfl, hrow, hlater, hspanned⟩

/-- the table is the rows as they are placed, if all cells stop below 2^64 -/
theorem gridRows_iff {covered : ℕ → ℕ → Prop} {spanned : List Ranges} {rows : List TableRow}
    {grid : List (List CellPlacement)} (hlength : spanned.length = rows.length)
    (hcovered : ∀ k < rows.length, ∀ column, (spanned.getD k []).covers column = true ↔ covered k column) :
    gridRows spanned rows = some grid ↔ GridPlaced covered rows grid ∧ Narrow grid := by
  induction rows generalizing covered spanned grid with
  | nil =>
    cases grid with
    | nil => simp [gridRows, GridPlaced, Narrow]
    | cons places grid => simp [gridRows, GridPlaced]
  | cons row rows ih =>
    have hne : 0 < spanned.length := by rw [hlength, List.length_cons]; exact Nat.succ_pos _
    have hrow := fun places spanned' => @gridRow_iff (covered 0) spanned spanned' 0 row.cells places hne
      fun column _ => hcovered 0 (Nat.succ_pos _) column
    rw [hlength, List.length_cons] at hrow
    have hrest := fun (places : List CellPlacement) (later : List (List CellPlacement)) => @ih (fun k column => covered (k + 1) column ∨
      ∃ p ∈ places, k + 1 < p.rowSpan ∧ p.column ≤ column ∧ column < p.stop) (places.foldl span spanned).tail later (by
        rw [List.length_tail, foldl_length, hlength, List.length_cons, Nat.add_sub_cancel]) (by
        intro k hk column
        have hk' : k + 1 < spanned.length := by rw [hlength, List.length_cons]; omega
        rw [show (places.foldl span spanned).tail.getD k [] = (places.foldl span spanned).getD (k + 1) [] by simp,
          covers_foldl places hk', hcovered (k + 1) (by simpa using hk)])
    constructor
    · intro h
      simp only [gridRows, Option.bind_eq_bind, Option.bind_eq_some_iff, Prod.exists] at h
      obtain ⟨places, spanned', hplaces, later, hlater, heq⟩ := h
      obtain rfl : places :: later = grid := Option.some.inj heq
      obtain ⟨hplaced, hnarrow, rfl⟩ := (hrow places spanned').1 hplaces
      obtain ⟨hgrid, hlaternarrow⟩ := (hrest places later).1 hlater
      exact ⟨⟨hplaced, hgrid⟩, List.forall_mem_cons.2 ⟨hnarrow, hlaternarrow⟩⟩
    · intro ⟨hplaced, hnarrow⟩
      cases grid with
      | nil => exact hplaced.elim
      | cons places later =>
        obtain ⟨hfirst, hlater⟩ := List.forall_mem_cons.1 hnarrow
        have hplaces := (hrow places _).2 ⟨hplaced.1, hfirst, rfl⟩
        have hgrid := (hrest places later).2 ⟨hplaced.2, hlater⟩
        simp only [gridRows, hplaces, hgrid, Option.bind_eq_bind, Option.bind_some, Option.pure_def]

theorem tableGrid_iff {rows : List TableRow} {grid : List (List CellPlacement)} {columns : ℕ} :
    tableGrid rows = some (grid, columns) ↔
      (GridPlaced (fun _ _ => False) rows grid ∧ Narrow grid) ∧ columnsOf grid = columns := by
  have hrows := fun grid => @gridRows_iff (fun _ _ => False) (rows.map fun _ => []) rows grid (List.length_map _) fun k hk column => by simp [hk, Ranges.covers]
  simp only [← hrows, tableGrid, Option.bind_eq_bind, Option.bind_eq_some_iff, Option.pure_def, Option.some.injEq,
    Prod.mk.injEq]
  constructor
  · rintro ⟨grid', hgrid, rfl, rfl⟩
    exact ⟨hgrid, rfl⟩
  · rintro ⟨hgrid, rfl⟩
    exact ⟨grid, hgrid, rfl, rfl⟩

/-! ## The slots of the cells -/

theorem spanAttribute_pos (value : Option Chars) : 0 < spanAttribute value := by
  rw [spanAttribute]
  cases h : (value.bind fun text => text.trim.parseU64).filter (0 < ·) with
  | none => exact Nat.one_pos
  | some span => exact of_decide_eq_true (Option.filter_eq_some_iff.1 h).2

section RowPlaced

variable {covered : ℕ → Prop} {remaining start : ℕ} {cells : List Cell} {places : List CellPlacement}

theorem RowPlaced.columns_lt (h : RowPlaced covered remaining start cells places) :
    (∀ p ∈ places, start ≤ p.column) ∧ places.Pairwise fun a b => a.column < b.column := by
  induction cells generalizing start places with
  | nil =>
    cases places with
    | nil => exact ⟨fun p hp => absurd hp List.not_mem_nil, .nil⟩
    | cons p places => exact h.elim
  | cons cell cells ih =>
    cases places with
    | nil => exact h.elim
    | cons p places =>
      obtain ⟨⟨hcolumns, -, hfirst⟩, hlater⟩ := h
      obtain ⟨hbehind, hpairs⟩ := ih hlater
      have hstop : p.column < p.stop := Nat.lt_add_of_pos_right (hcolumns ▸ spanAttribute_pos _)
      refine ⟨List.forall_mem_cons.2 ⟨hfirst.le, fun q hq => ?_⟩, List.pairwise_cons.2 ⟨fun q hq => ?_, hpairs⟩⟩
      · exact hfirst.le.trans (hstop.le.trans (hbehind q hq))
      · exact hstop.trans_le (hbehind q hq)

/-- the cell of a placement is in the row, and the other way round -/
theorem RowPlaced.spans (h : RowPlaced covered remaining start cells places) :
    places.map (fun p => (p.columnSpan, p.rowSpan)) =
      cells.map fun cell => (spanAttribute cell.colspan, min (spanAttribute cell.rowspan) remaining) := by
  induction cells generalizing start places with
  | nil =>
    cases places with
    | nil => rfl
    | cons p places => exact h.elim
  | cons cell cells ih =>
    cases places with
    | nil => exact h.elim
    | cons p places =>
      obtain ⟨⟨hcolumns, hrows, -⟩, hlater⟩ := h
      rw [List.map_cons, List.map_cons, ih hlater, hcolumns, hrows]

end RowPlaced

section GridPlaced

variable {covered : ℕ → ℕ → Prop} {rows : List TableRow} {grid : List (List CellPlacement)}

theorem GridPlaced.length_eq (h : GridPlaced covered rows grid) : grid.length = rows.length := by
  induction rows generalizing covered grid with
  | nil =>
    cases grid with
    | nil => rfl
    | cons places grid => exact h.elim
  | cons row rows ih =>
    cases grid with
    | nil => exact h.elim
    | cons places grid => rw [List.length_cons, List.length_cons, ih h.2]

theorem GridPlaced.row (h : GridPlaced covered rows grid) {r : ℕ} {row : TableRow} {places : List CellPlacement}
    (hrow : rows[r]? = some row) (hplaces : grid[r]? = some places) :
    ∃ above, RowPlaced above (rows.length - r) 0 row.cells places := by
  induction rows generalizing covered grid r with
  | nil => cases hrow
  | cons first rows ih =>
    cases grid with
    | nil => exact h.elim
    | cons firstPlaces grid =>
      cases r with
      | zero =>
        obtain rfl : first = row := Option.some.inj hrow
        obtain rfl : firstPlaces = places := Option.some.inj hplaces
        exact ⟨_, h.1⟩
      | succ r =>
        obtain ⟨above, hplaced⟩ := ih h.2 hrow hplaces
        exact ⟨above, by rwa [List.length_cons, Nat.succ_sub_succ]⟩

end GridPlaced

/-- what is asked of a grid -/
structure Good (rows : List TableRow) (grid : List (List CellPlacement)) (columns : ℕ) : Prop where
  placed : GridPlaced (fun _ _ => False) rows grid
  apart (places : List CellPlacement) (h : places ∈ grid) : places.Pairwise fun a b => a.column < b.column
  inside (r : ℕ) (places : List CellPlacement) (h : grid[r]? = some places) (p : CellPlacement) (hp : p ∈ places) :
    0 < p.columnSpan ∧ p.stop ≤ columns ∧ 0 < p.rowSpan ∧ r + p.rowSpan ≤ rows.length
  /-- no cell spans a row behind its group -/
  grouped (r : ℕ) (places : List CellPlacement) (h : grid[r]? = some places) (p : CellPlacement) (hp : p ∈ places)
    (row below : TableRow) (hrow : rows[r]? = some row) (k : ℕ) (hk : k < p.rowSpan) (hbelow : rows[r + k]? = some below)
    (group : ℕ) (hgroup : row.group = some group) : below.group = some group

/-- every row that the `rowspan` of a cell reaches, and that is there, is in the cell's group -/
def SpansStayInGroup (rows : List TableRow) : Prop :=
  ∀ r row, rows[r]? = some row → ∀ cell ∈ row.cells, ∀ k < spanAttribute cell.rowspan, ∀ below, rows[r + k]? = some below →
    ∀ group, row.group = some group → below.group = some group

theorem le_columnsOf {grid : List (List CellPlacement)} {places : List CellPlacement} (h : places ∈ grid)
    {p : CellPlacement} (hp : p ∈ places) : p.stop ≤ columnsOf grid := by
  have hmem : p ∈ grid.flatten := List.mem_flatten.2 ⟨places, h, hp⟩
  rw [columnsOf]
  generalize grid.flatten = cells at hmem
  induction cells with
  | nil => cases hmem
  | cons q cells ih =>
    rw [List.foldr_cons]
    rcases List.mem_cons.1 hmem with rfl | hlater
    · exact le_max_right _ _
    · exact (ih hlater).trans (le_max_left _ _)

theorem GridPlaced.good_iff {rows : List TableRow} {grid : List (List CellPlacement)}
    (h : GridPlaced (fun _ _ => False) rows grid) : Good rows grid (columnsOf grid) ↔ SpansStayInGroup rows := by
  constructor
  · intro hgood r row hrow cell hcell k hk below hbelow group hgroup
    have hr : r < grid.length := h.length_eq ▸ (List.getElem?_eq_some_iff.1 hrow).1
    obtain ⟨above, hplaced⟩ := h.row hrow (List.getElem?_eq_getElem hr)
    have hmem := List.mem_map_of_mem (f := fun cell : Cell => (spanAttribute cell.colspan,
      min (spanAttribute cell.rowspan) (rows.length - r))) hcell
    rw [← hplaced.spans] at hmem
    obtain ⟨p, hp, hspans⟩ := List.mem_map.1 hmem
    refine hgood.grouped r _ (List.getElem?_eq_getElem hr) p hp row below hrow k ?_ hbelow group hgroup
    have hrows : p.rowSpan = min (spanAttribute cell.rowspan) (rows.length - r) := (Prod.ext_iff.1 hspans).2
    rw [hrows, lt_min_iff]
    exact ⟨hk, by have := (List.getElem?_eq_some_iff.1 hbelow).1; omega⟩
  · intro hstay
    have hcell : ∀ r places, grid[r]? = some places → ∀ p ∈ places, ∃ row, rows[r]? = some row ∧ ∃ cell ∈ row.cells,
        p.columnSpan = spanAttribute cell.colspan ∧ p.rowSpan = min (spanAttribute cell.rowspan) (rows.length - r) := by
      intro r places hplaces p hp
      have hr : r < rows.length := h.length_eq ▸ (List.getElem?_eq_some_iff.1 hplaces).1
      obtain ⟨above, hplaced⟩ := h.row (List.getElem?_eq_getElem hr) hplaces
      have hmem := List.mem_map_of_mem (f := fun p : CellPlacement => (p.columnSpan, p.rowSpan)) hp
      rw [hplaced.spans] at hmem
      obtain ⟨cell, hcell, hspans⟩ := List.mem_map.1 hmem
      exact ⟨_, List.getElem?_eq_getElem hr, cell, hcell, (Prod.ext_iff.1 hspans).1.symm, (Prod.ext_iff.1 hspans).2.symm⟩
    refine ⟨h, fun places hplaces => ?_, fun r places hplaces p hp => ?_, ?_⟩
    · obtain ⟨r, hr, rfl⟩ := List.getElem_of_mem hplaces
      obtain ⟨above, hplaced⟩ := h.row (List.getElem?_eq_getElem (h.length_eq ▸ hr)) (List.getElem?_eq_getElem hr)
      exact hplaced.columns_lt.2
    · obtain ⟨row, hrow, cell, -, hcolumns, hrows⟩ := hcell r places hplaces p hp
      have hr := (List.getElem?_eq_some_iff.1 hrow).1
      have hpos := spanAttribute_pos cell.rowspan
      exact ⟨hcolumns ▸ spanAttribute_pos _, le_columnsOf (List.mem_of_getElem? hplaces) hp, by omega, by omega⟩
    · intro r places hplaces p hp row below hrow k hk hbelow group hgroup
      obtain ⟨row', hrow', cell, hmem, -, hrows⟩ := hcell r places hplaces p hp
      obtain rfl : row' = row := Option.some.inj (hrow'.symm.trans hrow)
      rw [hrows, lt_min_iff] at hk
      exact hstay r row' hrow cell hmem k hk.1 below hbelow group hgroup

/-! ## The column boxes -/

section ColumnBoxes

variable {W : Type} (widen : ℕ → W → Option W → Option W) (columns : ℕ)

def totalSpan (boxes : List (ColumnBox W)) : ℕ := (boxes.map fun box => spanAttribute box.span).sum

/-- a column box with a width begins inside the columns, or right behind them; the spans add up below 2^64 -/
def BoxesFit (column : ℕ) (boxes : List (ColumnBox W)) : Prop :=
  ∀ before box after, boxes = before ++ box :: after →
    (box.width.isSome = true → column + totalSpan before ≤ columns) ∧
      column + totalSpan before + spanAttribute box.span < 2 ^ 64

theorem boxesFit_cons {column : ℕ} {box : ColumnBox W} {boxes : List (ColumnBox W)} :
    BoxesFit columns column (box :: boxes) ↔ ((box.width.isSome = true → column ≤ columns) ∧
      column + spanAttribute box.span < 2 ^ 64) ∧ BoxesFit columns (column + spanAttribute box.span) boxes := by
  have htotal : ∀ before : List (ColumnBox W), column + totalSpan (box :: before) =
      column + spanAttribute box.span + totalSpan before := fun before => by
    rw [totalSpan, List.map_cons, List.sum_cons, totalSpan, Nat.add_assoc]
  constructor
  · intro h
    refine ⟨h [] box boxes rfl, fun before next after heq => ?_⟩
    have hnext := h (box :: before) next after (by rw [heq, List.cons_append])
    rwa [htotal] at hnext
  · rintro ⟨hfirst, hlater⟩ before next after heq
    cases before with
    | nil =>
      obtain ⟨rfl, -⟩ := List.cons.inj heq
      exact hfirst
    | cons other before =>
      obtain ⟨rfl, hrest⟩ := List.cons.inj heq
      rw [htotal]
      exact hlater before next after hrest

theorem applyColumnBoxWidths_isSome {column : ℕ} {fixed : List (Option W)} {boxes : List (ColumnBox W)} :
    (applyColumnBoxWidths widen columns column fixed boxes).isSome = true ↔ BoxesFit columns column boxes := by
  induction boxes generalizing column fixed with
  | nil => exact ⟨fun _ before box after heq => absurd heq (by simp), fun _ => rfl⟩
  | cons box boxes ih =>
    have hspan : max (spanAttribute box.span) 1 = spanAttribute box.span := max_eq_left (spanAttribute_pos _)
    rw [boxesFit_cons, applyColumnBoxWidths, hspan]
    by_cases hadd : column + spanAttribute box.span < 2 ^ 64
    · rw [add, if_pos hadd]
      cases hwidth : box.width with
      | none => simp only [Option.bind_eq_bind, Option.bind_some, ih, hadd, Option.isSome_none, reduceCtorEq,
          false_implies, true_and]
      | some width =>
        by_cases hbehind : columns < column
        · simp [hbehind]
        · simp only [if_neg hbehind, Option.bind_eq_bind, Option.bind_some, ih, hadd, not_lt.1 hbehind, implies_true,
            true_and]
    · rw [add, if_neg hadd]
      simp only [hadd, and_false, false_and, iff_false]
      cases box.width with
      | none => simp
      | some width => by_cases hbehind : columns < column <;> simp [hbehind]

end ColumnBoxes

/-- the grid is as asked and no arithmetic fails just where row spans stay in their groups, cells stop below 2^64, and column
boxes with a width begin in the columns -/
theorem tableGrid_good_iff {W : Type} (widen : ℕ → W → Option W → Option W) (rows : List TableRow)
    (fixed : List (Option W)) (boxes : List (ColumnBox W)) :
    (∃ grid columns, tableGrid rows = some (grid, columns) ∧ Good rows grid columns ∧
      (applyColumnBoxWidths widen columns 0 fixed boxes).isSome = true) ↔
    SpansStayInGroup rows ∧ ∃ grid, GridPlaced (fun _ _ => False) rows grid ∧ Narrow grid ∧
      BoxesFit (columnsOf grid) 0 boxes := by
  simp only [tableGrid_iff, applyColumnBoxWidths_isSome]
  constructor
  · rintro ⟨grid, columns, ⟨⟨hplaced, hnarrow⟩, rfl⟩, hgood, hboxes⟩
    exact ⟨hplaced.good_iff.1 hgood, grid, hplaced, hnarrow, hboxes⟩
  · rintro ⟨hstay, grid, hplaced, hnarrow, hboxes⟩
    exact ⟨grid, _, ⟨⟨hplaced, hnarrow⟩, rfl⟩, hplaced.good_iff.2 hstay, hboxes⟩

/-- a cell of two rows in a group of one row reaches into the next group -/
theorem tableGrid_crosses_group :
    ¬∃ grid columns, tableGrid [⟨some 0, [⟨none, some ['2']⟩]⟩, ⟨some 1, [⟨none, none⟩]⟩] = some (grid, columns) ∧
      Good [⟨some 0, [⟨none, some ['2']⟩]⟩, ⟨some 1, [⟨none, none⟩]⟩] grid columns := by
  rintro ⟨grid, columns, hgrid, hgood⟩
  obtain ⟨⟨hplaced, -⟩, rfl⟩ := tableGrid_iff.1 hgrid
  have hspan : 1 < spanAttribute (some ['2']) := by decide
  exact absurd (hplaced.good_iff.1 hgood 0 _ rfl _ List.mem_cons_self 1 hspan _ rfl 0 rfl) (by decide)

end Render.Layout.TableGrid
