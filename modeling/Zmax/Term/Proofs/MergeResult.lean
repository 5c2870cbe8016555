/-
The result of resolving each block of changed rows to a side.

The rows come apart into unchanged ones and maximal runs of changed ones
(`pieces`). The runs are the blocks (`computeBlocks_eq`), each row has the
resolution of its block (`assign_pieces`), and so a run gives the lines of
its side (`resultText_eq`).
-/
import Zmax.Term.Proofs.MergeAlign

namespace Zmax.DiffView

-- == statement vocabulary

/-- An unchanged row, or a maximal run of changed ones. -/
inductive Piece where
  | kept (row : DiffRow)
  | block (row : DiffRow) (rows : List DiffRow)

def pieces : List DiffRow → List Piece
  | [] => []
  | row :: rows =>
      if row.isChange then
        .block row (rows.takeWhile DiffRow.isChange)
          :: pieces (rows.dropWhile DiffRow.isChange)
      else .kept row :: pieces rows
  termination_by rows => rows.length
  decreasing_by
    · exact Nat.lt_succ_of_le (List.dropWhile_suffix _).length_le
    · exact Nat.lt_succ_self _

/-- The lines of the side that a run of rows is resolved to. -/
def sideLines (old new : List Line) (rows : List DiffRow) :
    Resolution → List Line
  | .left => rows.filterMap fun row => lineOf old row.left
  | _ => rows.filterMap fun row => lineOf new row.right

section

variable (choose : Nat → Resolution)

/-- The unchanged lines and the chosen side of each block from the `k`-th
on, in order. -/
def chosenLines (old new : List Line) (k : Nat) : List Piece → List Line
  | [] => []
  | .kept row :: ps =>
      (lineOf new row.right).toList ++ chosenLines old new k ps
  | .block row rows :: ps =>
      sideLines old new (row :: rows) (choose k)
        ++ chosenLines old new (k + 1) ps

/-- The blocks with the resolutions that are chosen from the `k`-th on. -/
def resolveFrom (k : Nat) : List Block → List Block
  | [] => []
  | block :: blocks =>
      { block with resolution := choose k } :: resolveFrom (k + 1) blocks

attribute [grind =] pieces chosenLines resolveFrom

end

-- == blocks

/-- Where the runs are, from a row on. -/
def blocksFrom (i : Nat) : List Piece → List Block
  | [] => []
  | .kept _ :: ps => blocksFrom (i + 1) ps
  | .block _ rows :: ps =>
      ⟨i, i + (rows.length + 1), .right⟩
        :: blocksFrom (i + (rows.length + 1)) ps

attribute [grind =] blocksFrom

/-- Changed rows behind a changed one begin no block. -/
theorem changeBlocksFrom_run {rows : List DiffRow} (i : Nat)
    (h : ∀ row ∈ rows, row.isChange) (more : List DiffRow) :
    changeBlocksFrom i true (rows ++ more)
      = changeBlocksFrom (i + rows.length) true more := by
  induction rows generalizing i with
  | nil => rfl
  | cons row rows ih =>
      obtain ⟨hrow, hrows⟩ := List.forall_mem_cons.mp h
      rw [List.cons_append, changeBlocksFrom, hrow, ih (i + 1) hrows,
        List.length_cons, Nat.add_right_comm, Nat.add_assoc]
      rfl

/-- Behind a run the next block begins as at the top. -/
theorem changeBlocksFrom_dropWhile (i : Nat) (rows : List DiffRow) :
    changeBlocksFrom i true (rows.dropWhile DiffRow.isChange)
      = changeBlocksFrom i false (rows.dropWhile DiffRow.isChange) := by
  have hhead := List.head?_dropWhile_not DiffRow.isChange rows
  cases hrows : rows.dropWhile DiffRow.isChange with
  | nil => rfl
  | cons row more =>
      rw [hrows] at hhead
      have hrow : row.isChange = false := hhead
      rw [changeBlocksFrom, changeBlocksFrom, hrow]
      rfl

theorem mem_takeWhile (rows : List DiffRow) :
    ∀ row ∈ rows.takeWhile DiffRow.isChange, row.isChange :=
  fun _ hrow => List.mem_takeWhile_imp hrow

/-- A run begins one block. -/
theorem changeBlocksFrom_block {row : DiffRow} {rows : List DiffRow}
    {i : Nat} (h : row.isChange) :
    changeBlocksFrom i false (row :: rows)
      = i :: changeBlocksFrom
        (i + ((rows.takeWhile DiffRow.isChange).length + 1)) false
        (rows.dropWhile DiffRow.isChange) := by
  have hsplit : rows.takeWhile DiffRow.isChange
      ++ rows.dropWhile DiffRow.isChange = rows :=
    List.takeWhile_append_dropWhile
  have hrun := changeBlocksFrom_run (i + 1) (mem_takeWhile rows)
    (rows.dropWhile DiffRow.isChange)
  rw [hsplit, changeBlocksFrom_dropWhile] at hrun
  rw [changeBlocksFrom, h, hrun, Nat.add_assoc, Nat.add_comm 1]
  rfl

/-- The blocks of the rows behind some others. -/
theorem blocks_behind (front rows : List DiffRow) :
    ((changeBlocksFrom front.length false rows).map fun start =>
        (⟨start, start + (((front ++ rows).drop start).takeWhile
          DiffRow.isChange).length, .right⟩ : Block))
      = blocksFrom front.length (pieces rows) := by
  induction rows using pieces.induct generalizing front with
  | case1 => rw [pieces]; rfl
  | case2 row rows hrow ih =>
      have hsplit : row :: rows = (row :: rows.takeWhile DiffRow.isChange)
          ++ rows.dropWhile DiffRow.isChange := by
        rw [List.cons_append, List.takeWhile_append_dropWhile]
      have hlen : ((front ++ row :: rows).drop front.length).takeWhile
          DiffRow.isChange = row :: rows.takeWhile DiffRow.isChange := by
        rw [List.drop_left, List.takeWhile_cons_of_pos hrow]
      have ih := ih (front ++ (row :: rows.takeWhile DiffRow.isChange))
      rw [List.append_assoc, ← hsplit, List.length_append,
        List.length_cons] at ih
      rw [pieces, if_pos hrow, blocksFrom, ← ih, changeBlocksFrom_block hrow,
        List.map_cons, hlen]
      rfl
  | case3 row rows hrow ih =>
      have hfalse : row.isChange = false := by simpa using hrow
      have ih := ih (front ++ [row])
      rw [List.append_assoc, List.singleton_append, List.length_append,
        List.length_singleton] at ih
      rw [pieces, if_neg hrow, blocksFrom, ← ih, changeBlocksFrom, hfalse]
      rfl

theorem computeBlocks_eq (rows : List DiffRow) :
    computeBlocks rows = blocksFrom 0 (pieces rows) := blocks_behind [] rows

-- == results

theorem assign_run (r : Resolution) (done rest : List (Option Resolution))
    (n : Nat) :
    (List.range' done.length n).foldlM (assign r)
        (done ++ (List.replicate n none ++ rest))
      = .ok (done ++ (List.replicate n (some r) ++ rest)) := by
  induction n generalizing done with
  | zero => rfl
  | succ n ih =>
      have hassign : assign r
          (done ++ (none :: (List.replicate n none ++ rest))) done.length
          = .ok ((done ++ [some r]) ++ (List.replicate n none ++ rest)) := by
        unfold assign
        rw [if_pos (by simp), List.append_assoc, List.singleton_append]
        simp
      have ih := ih (done ++ [some r])
      rw [List.length_append, List.length_singleton] at ih
      rw [List.range'_succ, List.replicate_succ, List.replicate_succ,
        List.cons_append, List.foldlM_cons, hassign, ok_bind, ih,
        List.append_assoc]
      rfl

/-- The resolution of each row. -/
def rowResolutions (choose : Nat → Resolution) (k : Nat) :
    List Piece → List (Option Resolution)
  | [] => []
  | .kept _ :: ps => none :: rowResolutions choose k ps
  | .block _ rows :: ps =>
      List.replicate (rows.length + 1) (some (choose k))
        ++ rowResolutions choose (k + 1) ps

def Piece.rows : Piece → List DiffRow
  | .kept row => [row]
  | .block row rows => row :: rows

attribute [grind =] rowResolutions

theorem pieces_rows (rows : List DiffRow) :
    (pieces rows).flatMap Piece.rows = rows := by
  induction rows using pieces.induct with
  | case1 => rw [pieces]; rfl
  | case2 row rows hrow ih =>
      rw [pieces, if_pos hrow, List.flatMap_cons, ih, Piece.rows,
        List.cons_append, List.takeWhile_append_dropWhile]
  | case3 row rows hrow ih =>
      rw [pieces, if_neg hrow, List.flatMap_cons, ih]
      rfl

/-- Each row of a block has its resolution. -/
theorem assign_pieces (choose : Nat → Resolution) (k : Nat)
    (done : List (Option Resolution)) (ps : List Piece) :
    (resolveFrom choose k (blocksFrom done.length ps)).foldlM assignBlock
        (done ++ (ps.flatMap Piece.rows).map fun _ => none)
      = .ok (done ++ rowResolutions choose k ps) := by
  induction ps generalizing k done with
  | nil => rfl
  | cons p ps ih =>
      cases p with
      | kept row =>
          have ih := ih k (done ++ [none])
          rw [List.length_append, List.length_singleton, List.append_assoc,
            List.append_assoc] at ih
          exact ih
      | block row rows =>
          have hrun := assign_run (choose k) done
            ((ps.flatMap Piece.rows).map fun _ => none) (rows.length + 1)
          have ih := ih (k + 1)
            (done ++ List.replicate (rows.length + 1) (some (choose k)))
          rw [List.length_append, List.length_replicate, List.append_assoc,
            List.append_assoc] at ih
          have hnone : (row :: rows).map (fun _ => (none : Option Resolution))
              = List.replicate (rows.length + 1) none := List.map_const'
          rw [List.flatMap_cons, List.map_append, Piece.rows, hnone,
            blocksFrom, resolveFrom, List.foldlM_cons, assignBlock]
          rw [Nat.add_sub_cancel_left, hrun, ok_bind]
          exact ih

/-- The lines that the rows of the pieces give. -/
theorem rowLines_pieces (old : List Line) {new : List Line} {ps : List Piece}
    (choose : Nat → Resolution) (k : Nat)
    (hkept : ∀ row, .kept row ∈ ps → ∃ l, lineOf new row.right = some l) :
    (((ps.flatMap Piece.rows).zip (rowResolutions choose k ps)).filterMap
        fun p => rowLine old new p.1 p.2)
      = chosenLines choose old new k ps := by
  have hside (rows : List DiffRow) (r : Resolution) :
      (rows.zip (List.replicate rows.length (some r))).filterMap
          (fun p => rowLine old new p.1 p.2)
        = sideLines old new rows r := by
    induction rows with
    | nil => cases r <;> rfl
    | cons row rows ih =>
        rw [List.length_cons, List.replicate_succ, List.zip_cons_cons,
          List.filterMap_cons, ih]
        cases r <;> rfl
  induction ps generalizing k with
  | nil => rfl
  | cons p ps ih =>
      have ih := fun k => ih k fun row hrow =>
        hkept row (List.mem_cons_of_mem _ hrow)
      cases p with
      | kept row =>
          obtain ⟨l, hl⟩ := hkept row List.mem_cons_self
          have hline : rowLine old new row none = some l := by
            rw [rowLine, hl]
            rfl
          rw [List.flatMap_cons, Piece.rows, rowResolutions,
            List.singleton_append, List.zip_cons_cons, List.filterMap_cons,
            hline, ih, chosenLines, hl]
          rfl
      | block row rows =>
          rw [List.flatMap_cons, Piece.rows, rowResolutions,
            List.zip_append (by simp), List.filterMap_append, ih, chosenLines]
          exact congrArg (· ++ _) (hside (row :: rows) (choose k))

/-- A kept row is an unchanged one. -/
theorem kept_mem {rows : List DiffRow} {row : DiffRow}
    (h : .kept row ∈ pieces rows) : row ∈ rows ∧ row.isChange = false := by
  induction rows using pieces.induct with
  | case1 =>
      rw [pieces] at h
      cases h
  | case2 r rows hr ih =>
      rw [pieces, if_pos hr] at h
      rcases List.mem_cons.mp h with h | h
      · cases h
      · obtain ⟨hmem, hrow⟩ := ih h
        exact ⟨List.mem_cons_of_mem _ ((List.dropWhile_suffix _).mem hmem),
          hrow⟩
  | case3 r rows hr ih =>
      rw [pieces, if_neg hr] at h
      rcases List.mem_cons.mp h with h | h
      · injection h with h
        subst h
        exact ⟨List.mem_cons_self, by simpa using hr⟩
      · exact ⟨List.mem_cons_of_mem _ (ih h).1, (ih h).2⟩

section

variable {old new : List Line} {rows : List DiffRow}

/-- The result is the unchanged lines and the chosen sides. -/
theorem resultText_eq (h : Aligned old new rows)
    (choose : Nat → Resolution) :
    resultText rows (resolveFrom choose 0 (computeBlocks rows)) old new
      = .ok (emit (chosenLines choose old new 0 (pieces rows))) := by
  have hassign := assign_pieces choose 0 [] (pieces rows)
  have hkept : ∀ row, .kept row ∈ pieces rows →
      ∃ l, lineOf new row.right = some l := fun row hrow => by
    obtain ⟨hmem, hkind⟩ := kept_mem hrow
    obtain ⟨l, -, hl⟩ := h.same_line hmem hkind
    exact ⟨l, hl⟩
  have hlines := rowLines_pieces old choose 0 hkept
  rw [pieces_rows] at hassign hlines
  rw [List.nil_append, List.nil_append, List.length_nil] at hassign
  unfold resultText
  rw [computeBlocks_eq]
  show (List.foldlM assignBlock _ _ >>= _) = _
  rw [hassign, ok_bind, hlines]
  rfl

theorem filterMap_one (f : DiffRow → Option Line) (row : DiffRow) :
    [row].filterMap f = (f row).toList := by
  cases h : f row <;> simp [h]

theorem chosenLines_right (k : Nat) (ps : List Piece) :
    chosenLines (fun _ => .right) old new k ps
      = (ps.flatMap Piece.rows).filterMap
        fun row => lineOf new row.right := by
  induction ps generalizing k with
  | nil => rfl
  | cons p ps ih =>
      rw [List.flatMap_cons, List.filterMap_append]
      cases p with
      | kept row =>
          rw [chosenLines, ih, Piece.rows, filterMap_one]
      | block row rows =>
          rw [chosenLines, ih, Piece.rows]
          rfl

theorem chosenLines_left (k : Nat) {ps : List Piece}
    (hkept : ∀ row, .kept row ∈ ps →
      lineOf new row.right = lineOf old row.left) :
    chosenLines (fun _ => .left) old new k ps
      = (ps.flatMap Piece.rows).filterMap
        fun row => lineOf old row.left := by
  induction ps generalizing k with
  | nil => rfl
  | cons p ps ih =>
      have ih := fun k => ih k fun row hrow =>
        hkept row (List.mem_cons_of_mem _ hrow)
      rw [List.flatMap_cons, List.filterMap_append]
      cases p with
      | kept row =>
          rw [chosenLines, ih, Piece.rows, hkept row List.mem_cons_self,
            filterMap_one]
      | block row rows =>
          rw [chosenLines, ih, Piece.rows]
          rfl

/-- Each block resolved to the right is the new text. -/
theorem chosenLines_new (h : Aligned old new rows) :
    chosenLines (fun _ => .right) old new 0 (pieces rows) = new := by
  rw [chosenLines_right, pieces_rows, h.right_lines]

/-- Each block resolved to the left is the old one. -/
theorem chosenLines_old (h : Aligned old new rows) :
    chosenLines (fun _ => .left) old new 0 (pieces rows) = old := by
  rw [chosenLines_left 0 fun row hrow => ?_, pieces_rows, h.left_lines]
  obtain ⟨hmem, hkind⟩ := kept_mem hrow
  obtain ⟨l, hl, hl'⟩ := h.same_line hmem hkind
  rw [hl, hl']

end

end Zmax.DiffView
