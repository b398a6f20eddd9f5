import CosineTransform.Columns.Pass
import CosineTransform.Proofs.Grid
import CosineTransform.Proofs.Workers

/-!
# However a column pass ends

No step of a worker changes how many segments there are or how long one is, whether or not the step
can be taken (`ColumnPass.advance_segmented`). So a pass leaves a scratch window as long as it found
it, over whatever rows, with whatever lengths and however it ends (`ColumnPass.size_window_inOrder`,
`ColumnPass.size_window_onPool`). It fails like any other run of tasks
(`ColumnPass.inOrder_failure`, `ColumnPass.onPool_failure`).
-/

namespace CosineTransform.ColumnPass

variable {T : Type} {p : ColumnPass T} {count length : ℕ}

/-- The state that steps ended in has `count` segments of `length` elements, whether or not they
ended well. -/
def Segmented (count length : ℕ) : EStateM.Result Fault (ColumnState T) Unit → Prop
  | .ok _ s | .error _ s => s.segments.Shaped count length

section Steps

variable {s : ColumnState T}

theorem size_transformColumn {column : ℕ} {segment image : Array T}
    (h : p.transformColumn column segment = .ok image) : image.size = segment.size := by
  obtain ⟨_, -, h⟩ := bind_eq_ok.1 h
  obtain ⟨_, -, hblit⟩ := bind_eq_ok.1 h
  exact Buffer.size_of_blit hblit

/-- A step keeps the shape of the segments. -/
theorem advance_segmented (h : s.segments.Shaped count length) (worker : ℕ) (step : ColumnStep) :
    Segmented count length (p.advance worker step s) := by
  unfold advance
  cases step with
  | check block =>
    dsimp only
    split
    · exact h
    · split
      · exact h
      · split
        · exact h
        · exact h
  | fetch row col slot =>
    dsimp only
    split
    · exact h
    · exact h
    · exact h.set worker slot _
  | transform column =>
    dsimp only
    split
    · exact h
    · rename_i image himage
      -- the one step that replaces a segment, by an image of the same size
      obtain ⟨segment, hsegment, himage⟩ := bind_eq_ok.1 himage
      obtain ⟨hworker, rfl⟩ := Buffer.read_eq_ok_iff.1 hsegment
      exact h.setIfInBounds worker ((size_transformColumn himage).trans (h.2 worker hworker))
  | store slot row col =>
    dsimp only
    split
    · exact h
    · exact h
    · exact h

/-- Steps one after another keep the shape of the segments. -/
theorem run_segmented (h : s.segments.Shaped count length) (schedule : List (ℕ × ColumnStep)) :
    Segmented count length (p.run schedule s) := by
  induction schedule generalizing s with
  | nil => exact h
  | cons entry schedule ih =>
    have hfirst := advance_segmented (p := p) h entry.1 entry.2
    change Segmented count length (EStateM.bind (p.advance entry.1 entry.2) _ s)
    unfold EStateM.bind
    generalize p.advance entry.1 entry.2 s = first at hfirst ⊢
    cases first with
    | ok _ next => exact ih hfirst
    | error fault left => exact hfirst

theorem task_shaped (h : s.segments.Shaped count length) (worker : ℕ) :
    (p.task worker s).1.segments.Shaped count length := by
  have hrun := run_segmented (p := p) h ((p.program worker).map (worker, ·))
  rw [task, runWorker]
  generalize p.run ((p.program worker).map (worker, ·)) s = ended at hrun ⊢
  cases ended with
  | ok _ next => exact hrun
  | error fault left => exact hrun

end Steps

/-! ## Failures -/

theorem inOrder_failure {cells : Grid T} {window : Array T} {failure : Failure}
    (h : (p.inOrder cells window).result = .error failure) : Workers.RunFailure failure := by
  rw [inOrder] at h
  dsimp only at h
  split at h
  · obtain rfl := Except.error.inj h
    exact .fault _
  · split at h
    · exact nomatch h
    · obtain rfl := Except.error.inj h
      exact .fault _

theorem onPool_failure {pool : Except String Pool} {batch : ℕ} {cells : Grid T} {window : Array T}
    {failure : Failure} (h : (p.onPool pool batch cells window).result = .error failure) :
    Workers.RunFailure failure := by
  rw [onPool] at h
  split at h
  · obtain rfl := Except.error.inj h
    exact .fault _
  · exact Workers.fanOut_failure h

/-! ## The window -/

variable [Zero T]

/-- The pass of one worker keeps the length of the window. -/
theorem size_window_inOrder (p : ColumnPass T) (cells : Grid T) (window : Array T) :
    (p.inOrder cells window).window.size = window.size := by
  rw [inOrder]
  dsimp only
  rcases hslice : Buffer.slice window 0 (p.split.segmentLength p.rows) with fault | segment
  · rfl
  have hroom := Buffer.room_of_slice hslice
  have hshaped : Grid.Shaped 1 (p.split.segmentLength p.rows) #[segment] := by
    rw [Buffer.slice_eq_ok hroom] at hslice
    obtain rfl := Except.ok.inj hslice
    exact Grid.shaped_ofFn fun _ i => Buffer.entry window (0 + i)
  have hrun := run_segmented (p := p) (s := ⟨cells, #[segment]⟩) hshaped
    ((p.program 0).map (0, ·))
  -- the rest of the window is appended as it was
  have hsize (s : ColumnState T) (hs : s.segments.Shaped 1 (p.split.segmentLength p.rows)) :
      (s.segments.flatten ++ window.extract (p.split.segmentLength p.rows)).size = window.size := by
    rw [Array.size_append, hs.size_flatten, Array.size_extract]
    omega
  dsimp only
  rw [runWorker]
  generalize p.run ((p.program 0).map (0, ·)) ⟨cells, #[segment]⟩ = ended at hrun ⊢
  cases ended with
  | ok _ next => exact hsize next hrun
  | error fault left => exact hsize left hrun

/-- The pass of the workers of a pool keeps the length of the window. -/
theorem size_window_onPool (p : ColumnPass T) (pool : Except String Pool) (batch : ℕ)
    (cells : Grid T) (window : Array T) :
    (p.onPool pool batch cells window).window.size = window.size := by
  rw [onPool]
  rcases hpieces : Buffer.pieces (p.split.segmentLength p.rows) window with fault | segments
  · rfl
  have hshaped := Grid.shaped_of_pieces hpieces
  have hfinal := Workers.fanOut_preserves (Array.range segments.size)
    (fun worker _ => p.task worker)
    (motive := fun s => s.segments.Shaped (window.size / p.split.segmentLength p.rows)
      (p.split.segmentLength p.rows)) pool batch (s := ⟨cells, segments⟩) hshaped
    fun worker _ _ hs => task_shaped hs worker
  -- what is left behind the last whole segment is not handed out
  have hused := Nat.div_mul_le_self window.size (p.split.segmentLength p.rows)
  dsimp only
  rw [Array.size_append, Grid.Shaped.size_flatten hfinal, Array.size_extract, hshaped.1]
  omega

end CosineTransform.ColumnPass
