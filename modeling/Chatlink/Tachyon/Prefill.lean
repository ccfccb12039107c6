import Chatlink.Lib.Files
import Chatlink.Tachyon.Decoder

/-!
# Prompts staged in chunks

A chunk of a prompt is staged in pinned memory: its IDs, the pad token's where soft tokens go, and their rows at their
places in the chunk. On the device the rows then take the place of those embeddings. A run of soft tokens may begin or
end in any chunk and go over several, and what has been staged before is left in the memory, yet every position gets
what it gets when the whole prompt is staged at once.
-/
open Files

namespace Chatlink.Tachyon.Prefill

variable {F : Type} [Zero F]

/-- Pinned memory for a chunk: its IDs, and a row for each. -/
structure Pinned (F : Type) where
  ids : List ℕ
  rows : List F

/-- There is room for chunks of `size` tokens, with rows of `h` numbers. -/
structure Pinned.Fits (h size : ℕ) (p : Pinned F) : Prop where
  ids : size ≤ p.ids.length
  rows : h * size ≤ p.rows.length

/-- Pinned memory with the runs of soft tokens of the chunk: their first rows and numbers of rows. -/
structure Staged (F : Type) extends Pinned F where
  runs : List (ℕ × ℕ)

/-- The part of a run that is in the chunk of `n` tokens from `start` on. -/
def stageRun (h start n : ℕ) (s : Staged F) (run : ℕ × List F) : Staged F :=
  let a := max run.1 start
  let b := min (run.1 + run.2.length / h) (start + n)
  if a < b then
    { ids := put s.ids (a - start) (List.replicate (b - a) 0)
      rows := put s.rows (h * (a - start)) (slice run.2 ((a - run.1) * h) ((b - a) * h))
      runs := s.runs ++ [(a - start, b - a)] }
  else s

def stage (h start : ℕ) (part : List ℕ) (soft : List (ℕ × List F)) (p : Pinned F) : Staged F :=
  soft.foldl (stageRun h start part.length) { ids := put p.ids 0 part, rows := p.rows, runs := [] }

/-- What the device has at a position: the ID it looks up, and the row that takes the place of the embedding. -/
structure Cell (F : Type) where
  id : ℕ
  row : Option (List F)
  deriving DecidableEq, Repr

/-- The chunk's `n` cells once the runs are scattered over the embeddings. -/
def Staged.cells (h n : ℕ) (s : Staged F) : List (Cell F) :=
  (List.range n).map fun i =>
    ⟨s.ids.getD i 0, if s.runs.any fun r => r.1 ≤ i ∧ i < r.1 + r.2 then some (slice s.rows (h * i) h) else none⟩

/-- Chunk `k` at position `pos`, and the ones after it. -/
def prefillParts (h size : ℕ) (soft : List (ℕ × List F)) :
    ℕ → List (List ℕ) → Pinned F → ℕ → List (Cell F × ℕ)
  | _, [], _, _ => []
  | k, part :: rest, p, pos =>
    let s := stage h (k * size) part soft p
    (s.cells h part.length).zipIdx pos ++ prefillParts h size soft (k + 1) rest s.toPinned (pos + part.length)

/-- The cells that a prompt leaves, with their positions. -/
def prefillWith (h size : ℕ) (tokens : List ℕ) (soft : List (ℕ × List F)) (p : Pinned F) (pos : ℕ) :
    List (Cell F × ℕ) :=
  prefillParts h size soft 0 (Decoder.chunks size tokens.length tokens) p pos

/-! ## What a position is to get -/

/-- Position `p` of the prompt is one of the run. -/
def Covers (h : ℕ) (run : ℕ × List F) (p : ℕ) : Prop := run.1 ≤ p ∧ p < run.1 + run.2.length / h

instance (h : ℕ) (run : ℕ × List F) (p : ℕ) : Decidable (Covers h run p) := inferInstanceAs (Decidable (_ ∧ _))

/-- The run's row at a position. -/
def rowAt (h : ℕ) (run : ℕ × List F) (p : ℕ) : List F := slice run.2 ((p - run.1) * h) h

/-- The row of the last run that covers a position. -/
def softRow (h : ℕ) (soft : List (ℕ × List F)) (p : ℕ) : Option (List F) :=
  soft.foldl (fun row run => if Covers h run p then some (rowAt h run p) else row) none

/-- The soft row of a position or else its token. -/
def cellAt (h : ℕ) (soft : List (ℕ × List F)) (t p : ℕ) : Cell F :=
  ⟨if (softRow h soft p).isSome then 0 else t, softRow h soft p⟩

/-- The cells of tokens from position `start` of the prompt on. -/
def cellsFrom (h : ℕ) (soft : List (ℕ × List F)) (tokens : List ℕ) (start : ℕ) : List (Cell F) :=
  (tokens.zipIdx start).map fun t => cellAt h soft t.1 t.2

omit [Zero F] in
theorem softRow_concat (h : ℕ) (soft : List (ℕ × List F)) (run : ℕ × List F) (p : ℕ) :
    softRow h (soft ++ [run]) p = if Covers h run p then some (rowAt h run p) else softRow h soft p := by
  rw [softRow, List.foldl_append]
  rfl

omit [Zero F] in
theorem isSome_softRow {h : ℕ} {soft : List (ℕ × List F)} {p : ℕ} :
    (softRow h soft p).isSome ↔ ∃ run ∈ soft, Covers h run p := by
  induction soft using List.reverseRecOn with
  | nil => simp [softRow]
  | append_singleton soft run ih =>
    rw [softRow_concat]
    by_cases hc : Covers h run p
    · rw [if_pos hc]
      exact iff_of_true rfl ⟨run, by simp, hc⟩
    · rw [if_neg hc, ih]
      simp [hc, or_and_right, exists_or]

omit [Zero F] in
/-- Of runs that are apart, the one that covers a position gives its row. -/
theorem softRow_of_apart {h : ℕ} {soft : List (ℕ × List F)} {p : ℕ} {run : ℕ × List F}
    (hapart : soft.Pairwise fun s t => s.1 + s.2.length / h ≤ t.1) (hrun : run ∈ soft) (hc : Covers h run p) :
    softRow h soft p = some (rowAt h run p) := by
  induction soft using List.reverseRecOn with
  | nil => cases hrun
  | append_singleton soft last ih =>
    obtain ⟨hsoft, -, hlast⟩ := List.pairwise_append.mp hapart
    rw [softRow_concat]
    rcases List.mem_append.mp hrun with hin | hin
    · have hbefore := hlast run hin last (List.mem_singleton_self _)
      rw [if_neg fun hc' : Covers h last p => absurd hc.2 (by have := hc'.1; omega), ih hsoft hin]
    · obtain rfl := List.mem_singleton.mp hin
      rw [if_pos hc]

/-! ## One chunk -/

section Put

variable {α : Type} [Zero α] {file xs : List α} {i j n : ℕ}

theorem getElem?_put_self (hj : j < xs.length) : (put file i xs)[i + j]? = some xs[j] := by
  have hslice : (slice (put file i xs) i xs.length)[j]? = some xs[j] := by
    rw [slice_put_self, List.getElem?_eq_getElem hj]
  rwa [getElem?_slice, if_pos hj] at hslice

/-- A region of what has been put. -/
theorem slice_put_inside (hj : j + n ≤ xs.length) : slice (put file i xs) (i + j) n = slice xs j n := by
  rw [← slice_slice hj, slice_put_self]

end Put

/-- The chunk `part` from `start` on is staged as far as the runs `done` go. -/
structure Laid (h start : ℕ) (part : List ℕ) (done : List (ℕ × List F)) (s : Staged F) : Prop where
  fits : s.Fits h part.length
  id : ∀ i (hi : i < part.length), s.ids[i]? = some (cellAt h done part[i] (start + i)).id
  row : ∀ i < part.length, ∀ r, softRow h done (start + i) = some r → slice s.rows (h * i) h = r
  run : ∀ i < part.length, (∃ r ∈ s.runs, r.1 ≤ i ∧ i < r.1 + r.2) ↔ (softRow h done (start + i)).isSome

omit [Zero F] in
theorem fits_start {h size : ℕ} {part : List ℕ} {p : Pinned F} (hp : p.Fits h size) :
    (⟨put p.ids 0 part, p.rows⟩ : Pinned F).Fits h size :=
  ⟨hp.ids.trans length_le_put, hp.rows⟩

theorem fits_stageRun {h size start n : ℕ} {s : Staged F} {run : ℕ × List F} (hs : s.Fits h size) :
    (stageRun h start n s run).Fits h size := by
  rw [stageRun]
  split
  · exact ⟨hs.ids.trans length_le_put, hs.rows.trans length_le_put⟩
  · exact hs

theorem fits_stage {h size start : ℕ} {part : List ℕ} {p : Pinned F} (hp : p.Fits h size) (soft : List (ℕ × List F)) :
    (stage h start part soft p).Fits h size :=
  List.foldlRecOn (motive := fun s : Staged F => s.Fits h size) soft _ (fits_start hp) fun _ hs _ _ => fits_stageRun hs

omit [Zero F] in
theorem laid_start {h start : ℕ} {part : List ℕ} {p : Pinned F} (hp : p.Fits h part.length) :
    Laid h start part [] { ids := put p.ids 0 part, rows := p.rows, runs := [] } := by
  refine ⟨fits_start hp, fun i hi => ?_, nofun, fun i _ => ?_⟩
  · have hput : (put p.ids 0 part)[0 + i]? = some part[i] := getElem?_put_self hi
    rw [Nat.zero_add] at hput
    rw [hput]
    rfl
  · simp [softRow]

omit [Zero F] in
/-- The run's part of a chunk is where it covers the chunk's positions. -/
theorem covers_iff {h start n i : ℕ} (run : ℕ × List F) (hi : i < n) :
    Covers h run (start + i) ↔
      max run.1 start ≤ start + i ∧ start + i < min (run.1 + run.2.length / h) (start + n) := by
  rw [Covers, max_le_iff, lt_min_iff]
  omega

omit [Zero F] in
/-- The row at a position, from the rows that are written for the chunk. -/
theorem slice_written {h a b q : ℕ} {run : ℕ × List F} (ha : run.1 ≤ a) (hab : a ≤ q) (hq : q < b) :
    slice (slice run.2 ((a - run.1) * h) ((b - a) * h)) ((q - a) * h) h = rowAt h run q := by
  have hone : (q - a) * h + h ≤ (b - a) * h := by
    rw [← Nat.succ_mul]
    exact Nat.mul_le_mul_right h (by omega)
  have hsum : q - run.1 = (a - run.1) + (q - a) := by omega
  rw [slice_slice hone, rowAt, hsum, Nat.add_mul]

theorem Laid.stageRun {h start : ℕ} {part : List ℕ} {done : List (ℕ × List F)} {s : Staged F}
    (hs : Laid h start part done s) (run : ℕ × List F) :
    Laid h start part (done ++ [run]) (stageRun h start part.length s run) := by
  rw [Prefill.stageRun]
  set a := max run.1 start with hadef
  set b := min (run.1 + run.2.length / h) (start + part.length) with hbdef
  have hcovers : ∀ i < part.length, (Covers h run (start + i) ↔ a ≤ start + i ∧ start + i < b) :=
    fun i hi => covers_iff run hi
  have hstart : start ≤ a := le_max_right _ _
  have hat : run.1 ≤ a := le_max_left _ _
  have hend : b ≤ run.1 + run.2.length / h := min_le_left _ _
  by_cases hab : a < b
  · rw [if_pos hab]
    have hlen : (slice run.2 ((a - run.1) * h) ((b - a) * h)).length = (b - a) * h := by
      apply length_slice_of_le
      rw [← Nat.add_mul]
      calc (a - run.1 + (b - a)) * h ≤ run.2.length / h * h := Nat.mul_le_mul_right h (by omega)
        _ ≤ run.2.length := Nat.div_mul_le_self _ _
    refine ⟨⟨hs.fits.ids.trans length_le_put, hs.fits.rows.trans length_le_put⟩, fun i hi => ?_, fun i hi r hr => ?_, fun i hi => ?_⟩
    · by_cases hc : Covers h run (start + i)
      · obtain ⟨hai, hib⟩ := (hcovers i hi).mp hc
        have hoff : i = a - start + (i - (a - start)) := by omega
        have hin : i - (a - start) < (List.replicate (b - a) 0).length := by rw [List.length_replicate]; omega
        have hput : (put s.ids (a - start) (List.replicate (b - a) 0))[a - start + (i - (a - start))]? = some _ :=
          getElem?_put_self hin
        rw [← hoff, List.getElem_replicate] at hput
        rw [hput, cellAt, softRow_concat, if_pos hc]
        rfl
      · have hout := mt (hcovers i hi).mpr hc
        have hsame : (put s.ids (a - start) (List.replicate (b - a) 0))[i]? = s.ids[i]? := by
          by_cases hlt : i < a - start
          · exact getElem?_put_of_lt (hi.trans_le hs.fits.ids) hlt
          · exact getElem?_put_of_ge (by rw [List.length_replicate]; omega)
        rw [hsame, hs.id i hi, cellAt, cellAt, softRow_concat, if_neg hc]
    · rw [softRow_concat] at hr
      by_cases hc : Covers h run (start + i)
      · rw [if_pos hc] at hr
        obtain ⟨hai, hib⟩ := (hcovers i hi).mp hc
        have hoff : h * i = h * (a - start) + (start + i - a) * h := by
          rw [Nat.mul_comm _ h, ← Nat.mul_add]
          congr 1
          omega
        have hone : (start + i - a) * h + h ≤ (slice run.2 ((a - run.1) * h) ((b - a) * h)).length := by
          rw [hlen, ← Nat.succ_mul]
          exact Nat.mul_le_mul_right h (by omega)
        rw [hoff, slice_put_inside hone, slice_written hat hai hib]
        exact Option.some.inj hr
      · rw [if_neg hc] at hr
        have hout := mt (hcovers i hi).mpr hc
        have hfile : h * i + h ≤ s.rows.length := by
          rw [← Nat.mul_succ]
          exact (Nat.mul_le_mul_left h hi).trans hs.fits.rows
        rw [slice_put_of_disjoint ?_ hfile, hs.row i hi r hr]
        by_cases hlt : i < a - start
        · left
          rw [← Nat.mul_succ]
          exact Nat.mul_le_mul_left h hlt
        · right
          rw [hlen, Nat.mul_comm _ h, ← Nat.mul_add]
          exact Nat.mul_le_mul_left h (by omega)
    · rw [softRow_concat]
      by_cases hc : Covers h run (start + i)
      · obtain ⟨hai, hib⟩ := (hcovers i hi).mp hc
        rw [if_pos hc]
        exact iff_of_true ⟨(a - start, b - a), by simp, by omega, by omega⟩ rfl
      · have hout := mt (hcovers i hi).mpr hc
        rw [if_neg hc, ← hs.run i hi]
        constructor
        · rintro ⟨r, hr, hri⟩
          rcases List.mem_append.mp hr with hr | hr
          · exact ⟨r, hr, hri⟩
          · obtain rfl := List.mem_singleton.mp hr
            exact absurd hri (by omega)
        · rintro ⟨r, hr, hri⟩
          exact ⟨r, List.mem_append_left _ hr, hri⟩
  · rw [if_neg hab]
    have hnone : ∀ i < part.length, softRow h (done ++ [run]) (start + i) = softRow h done (start + i) := by
      intro i hi
      rw [softRow_concat, if_neg (mt (hcovers i hi).mp (by omega))]
    refine ⟨hs.fits, fun i hi => ?_, fun i hi r hr => hs.row i hi r (hnone i hi ▸ hr), fun i hi => ?_⟩
    · rw [hs.id i hi, cellAt, cellAt, hnone i hi]
    · rw [hs.run i hi, hnone i hi]

theorem laid_stage {h start : ℕ} {part : List ℕ} {p : Pinned F} (hp : p.Fits h part.length)
    (soft : List (ℕ × List F)) : Laid h start part soft (stage h start part soft p) := by
  induction soft using List.reverseRecOn with
  | nil => exact laid_start hp
  | append_singleton soft run ih =>
    have hlast : stage h start part (soft ++ [run]) p =
        Prefill.stageRun h start part.length (stage h start part soft p) run := by
      rw [stage, List.foldl_append]
      rfl
    rw [hlast]
    exact ih.stageRun run

omit [Zero F] in
theorem Laid.cells {h start : ℕ} {part : List ℕ} {soft : List (ℕ × List F)} {s : Staged F}
    (hs : Laid h start part soft s) : s.cells h part.length = cellsFrom h soft part start := by
  apply List.ext_getElem
  · simp [Staged.cells, cellsFrom]
  · intro i hi _
    have hin : i < part.length := by simpa [Staged.cells] using hi
    have hid : s.ids.getD i 0 = (cellAt h soft part[i] (start + i)).id := by
      rw [List.getD_eq_getElem?_getD, hs.id i hin, Option.getD_some]
    simp only [Staged.cells, cellsFrom, List.getElem_map, List.getElem_range, List.getElem_zipIdx]
    have hany : (s.runs.any fun r => r.1 ≤ i ∧ i < r.1 + r.2) = (softRow h soft (start + i)).isSome := by
      rw [Bool.eq_iff_iff, ← hs.run i hin]
      simp
    rw [hid, hany]
    cases hrow : softRow h soft (start + i) with
    | none => simp [cellAt, hrow]
    | some r => simp [cellAt, hrow, hs.row i hin r hrow]

/-! ## All chunks -/

omit [Zero F] in
theorem cellsFrom_append (h : ℕ) (soft : List (ℕ × List F)) (xs ys : List ℕ) (start : ℕ) :
    cellsFrom h soft (xs ++ ys) start = cellsFrom h soft xs start ++ cellsFrom h soft ys (start + xs.length) := by
  rw [cellsFrom, cellsFrom, cellsFrom, List.zipIdx_append, List.map_append]

omit [Zero F] in
theorem length_cellsFrom (h : ℕ) (soft : List (ℕ × List F)) (xs : List ℕ) (start : ℕ) :
    (cellsFrom h soft xs start).length = xs.length := by
  rw [cellsFrom, List.length_map, List.length_zipIdx]

theorem prefillParts_eq {h size : ℕ} (hsize : 0 < size) (soft : List (ℕ × List F)) {k fuel : ℕ} {tokens : List ℕ}
    {p : Pinned F} {pos : ℕ} (hfuel : tokens.length ≤ fuel) (hp : p.Fits h size) :
    prefillParts h size soft k (Decoder.chunks size fuel tokens) p pos =
      (cellsFrom h soft tokens (k * size)).zipIdx pos := by
  induction fuel generalizing k tokens p pos with
  | zero =>
    obtain rfl := List.length_eq_zero_iff.mp (Nat.le_zero.mp hfuel)
    rfl
  | succ fuel ih =>
    cases tokens with
    | nil => rfl
    | cons t tokens =>
      rw [Decoder.chunks, prefillParts]
      · have hpart : ((t :: tokens).take size).length ≤ size := List.length_take_le _ _
        have hp' : p.Fits h ((t :: tokens).take size).length :=
          ⟨hpart.trans hp.ids, (Nat.mul_le_mul_left h hpart).trans hp.rows⟩
        have hrest : ((t :: tokens).drop size).length ≤ fuel := by
          rw [List.length_cons] at hfuel
          rw [List.length_drop, List.length_cons]
          omega
        have hnext : cellsFrom h soft ((t :: tokens).drop size) ((k + 1) * size) =
            cellsFrom h soft ((t :: tokens).drop size) (k * size + ((t :: tokens).take size).length) := by
          by_cases hlong : size ≤ (t :: tokens).length
          · rw [List.length_take_of_le hlong, Nat.succ_mul]
          · rw [List.drop_eq_nil_of_le (by omega)]
            rfl
        rw [(laid_stage hp' soft).cells, ih hrest (fits_stage hp soft), hnext]
        conv_rhs => rw [← List.take_append_drop size (t :: tokens), cellsFrom_append, List.zipIdx_append, length_cellsFrom]
      · exact List.cons_ne_nil _ _

/-- Chunk by chunk or in one piece, a position gets the same: of a run its rows in order, elsewhere its token. -/
theorem prefill_chunks {h size : ℕ} (hsize : 0 < size) (tokens : List ℕ) (soft : List (ℕ × List F)) {p p' : Pinned F}
    (pos : ℕ) (hp : p.Fits h size) (hp' : p'.Fits h tokens.length) :
    prefillWith h size tokens soft p pos = ((stage h 0 tokens soft p').cells h tokens.length).zipIdx pos ∧
    (soft.Pairwise (fun s t => s.1 + s.2.length / h ≤ t.1) → ∀ run ∈ soft, ∀ j < run.2.length / h,
      run.1 + j < tokens.length → (prefillWith h size tokens soft p pos)[run.1 + j]? =
        some (⟨0, some (slice run.2 (j * h) h)⟩, pos + (run.1 + j))) ∧
    ∀ i (hi : i < tokens.length), (∀ run ∈ soft, ¬Covers h run i) →
      (prefillWith h size tokens soft p pos)[i]? = some (⟨tokens[i], none⟩, pos + i) := by
  have hall : prefillWith h size tokens soft p pos = (cellsFrom h soft tokens 0).zipIdx pos := by
    rw [prefillWith, prefillParts_eq hsize soft (le_refl _) hp, Nat.zero_mul]
  have hat : ∀ i (hi : i < tokens.length),
      (prefillWith h size tokens soft p pos)[i]? = some (cellAt h soft tokens[i] i, pos + i) := by
    intro i hi
    rw [hall, List.getElem?_zipIdx, cellsFrom, List.getElem?_map, List.getElem?_zipIdx, List.getElem?_eq_getElem hi]
    simp
  refine ⟨by rw [hall, (laid_stage hp' soft).cells], fun hapart run hrun j hj hlt => ?_, fun i hi hnone => ?_⟩
  · have hcovers : Covers h run (run.1 + j) := ⟨Nat.le_add_right _ _, Nat.add_lt_add_left hj _⟩
    have hrow := softRow_of_apart hapart hrun hcovers
    rw [rowAt, Nat.add_sub_cancel_left] at hrow
    rw [hat _ hlt, cellAt, hrow]
    rfl
  · have hrow : softRow h soft i = none := by
      rw [← Option.not_isSome_iff_eq_none, isSome_softRow]
      rintro ⟨run, hrun, hc⟩
      exact hnone run hrun hc
    rw [hat i hi, cellAt, hrow]
    rfl

/-- Four tokens in chunks of two, the two rows of a run on both sides of the cut. -/
theorem run_over_a_cut :
    prefillWith 1 2 [10, 11, 12, 13] [(1, [7, 8])] ⟨[3, 3], [5, 5]⟩ 0 =
      ((stage 1 0 [10, 11, 12, 13] [(1, [7, 8])] ⟨[0, 0, 0, 0], [0, 0, 0, 0]⟩).cells 1 4).zipIdx 0 :=
  (prefill_chunks (F := ℕ) (by decide) [10, 11, 12, 13] [(1, [7, 8])] 0 ⟨by decide, by decide⟩ ⟨by decide, by decide⟩).1

end Chatlink.Tachyon.Prefill
