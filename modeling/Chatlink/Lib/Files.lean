import Mathlib

/-!
# Files written at offsets

A file is the list of what it holds. Writing behind its end fills the gap. A region keeps its
contents as long as no write touches it, which is all that writers of one file owe each other.
-/
namespace Files

variable {α : Type*}

/-- The `n` entries from `i` on, as far as there are any. -/
def slice (file : List α) (i n : ℕ) : List α := (file.drop i).take n

/-- Entries put at an offset, behind zeros where the file does not reach it. -/
def put [Zero α] (file : List α) (i : ℕ) (xs : List α) : List α :=
  if xs.isEmpty then file
  else file.take i ++ List.replicate (i - file.length) 0 ++ xs ++ file.drop (i + xs.length)

section Slice

variable {file : List α} {i n : ℕ}

theorem getElem?_slice (j : ℕ) : (slice file i n)[j]? = if j < n then file[i + j]? else none := by
  rw [slice, List.getElem?_take, List.getElem?_drop]

theorem length_slice : (slice file i n).length = min n (file.length - i) := by
  rw [slice, List.length_take, List.length_drop]

theorem length_slice_of_le (h : i + n ≤ file.length) : (slice file i n).length = n := by
  rw [length_slice]
  omega

@[simp] theorem slice_zero : slice file i 0 = [] := List.take_zero

theorem slice_all (h : file.length ≤ n) : slice file 0 n = file := by
  rw [slice, List.drop_zero, List.take_of_length_le h]

theorem slice_add (m : ℕ) : slice file i (n + m) = slice file i n ++ slice file (i + n) m := by
  rw [slice, slice, slice, List.take_add, List.drop_drop]

/-- A region is its first `n` entries and the rest. -/
theorem slice_split (n m : ℕ) :
    slice file i m = slice file i (min n m) ++ slice file (i + n) (m - n) := by
  obtain h | h := Nat.le_total m n
  · rw [Nat.min_eq_right h, Nat.sub_eq_zero_of_le h, slice_zero, List.append_nil]
  · rw [Nat.min_eq_left h, ← slice_add, Nat.add_sub_cancel' h]

/-- A region of a region. -/
theorem slice_slice {j m : ℕ} (h : j + m ≤ n) : slice (slice file i n) j m = slice file (i + j) m := by
  apply List.ext_getElem?
  intro k
  rw [getElem?_slice, getElem?_slice, getElem?_slice]
  split
  · rw [if_pos (by omega), Nat.add_assoc]
  · rfl

theorem slice_take {m : ℕ} (h : i + n ≤ m) : slice (file.take m) i n = slice file i n := by
  have hall : file.take m = slice file 0 m := rfl
  rw [hall, slice_slice h, Nat.zero_add]

/-- Two files agree on a region when they agree entry by entry. -/
theorem slice_congr {file' : List α} (h : ∀ j, i ≤ j → j < i + n → file[j]? = file'[j]?) :
    slice file i n = slice file' i n := by
  apply List.ext_getElem?
  intro j
  rw [getElem?_slice, getElem?_slice]
  split
  · exact h (i + j) (Nat.le_add_right i j) (by omega)
  · rfl

end Slice

section Put

variable [Zero α] {file xs : List α} {i j n : ℕ}

@[simp] theorem put_nil (file : List α) (i : ℕ) : put file i [] = file := rfl

theorem put_of_ne_nil (h : xs ≠ []) : put file i xs =
    file.take i ++ List.replicate (i - file.length) 0 ++ xs ++ file.drop (i + xs.length) :=
  if_neg (by simpa using h)

/-- What stands before the written entries has their offset as its length. -/
theorem length_before : (file.take i ++ List.replicate (i - file.length) 0).length = i := by
  rw [List.length_append, List.length_take, List.length_replicate]
  omega

theorem length_put (h : xs ≠ []) : (put file i xs).length = max file.length (i + xs.length) := by
  rw [put_of_ne_nil h, List.length_append, List.length_append, length_before, List.length_drop]
  omega

theorem length_le_put : file.length ≤ (put file i xs).length := by
  by_cases h : xs = []
  · rw [h, put_nil]
  · rw [length_put h]
    exact Nat.le_max_left _ _

/-- The written region holds what was written. -/
theorem slice_put_self : slice (put file i xs) i xs.length = xs := by
  by_cases h : xs = []
  · rw [h]
    exact slice_zero
  · rw [put_of_ne_nil h, List.append_assoc, slice, List.drop_left' length_before, List.take_left]

theorem getElem?_put_of_lt (h : j < file.length) (hj : j < i) : (put file i xs)[j]? = file[j]? := by
  by_cases hx : xs = []
  · rw [hx, put_nil]
  · have htake : j < (file.take i).length := by
      rw [List.length_take]
      omega
    rw [put_of_ne_nil hx, List.append_assoc, List.append_assoc, List.getElem?_append_left htake,
      List.getElem?_take, if_pos hj]

theorem getElem?_put_of_ge (hj : i + xs.length ≤ j) : (put file i xs)[j]? = file[j]? := by
  by_cases hx : xs = []
  · rw [hx, put_nil]
  · have hbefore : (file.take i ++ List.replicate (i - file.length) 0 ++ xs).length = i + xs.length := by
      rw [List.length_append, length_before]
    rw [put_of_ne_nil hx, List.getElem?_append_right (by omega), hbefore, List.getElem?_drop]
    congr 1
    omega

/-- A write behind the end fills the gap with zeros. -/
theorem getElem?_put_gap (hx : xs ≠ []) (hj : file.length ≤ j) (hji : j < i) : (put file i xs)[j]? = some 0 := by
  have hin : j < (file.take i ++ List.replicate (i - file.length) 0).length := by
    rw [length_before]
    exact hji
  have htake : (file.take i).length ≤ j := by
    rw [List.length_take]
    omega
  rw [put_of_ne_nil hx, List.append_assoc, List.getElem?_append_left hin, List.getElem?_append_right htake,
    List.getElem?_replicate, if_pos (by rw [List.length_take]; omega)]

/-- A region before a write is left alone. -/
theorem slice_put_before (h : j + n ≤ i) (hfile : j + n ≤ file.length) :
    slice (put file i xs) j n = slice file j n :=
  slice_congr fun k _ hk => getElem?_put_of_lt (by omega) (by omega)

/-- A region behind a write is left alone. -/
theorem slice_put_after (h : i + xs.length ≤ j) : slice (put file i xs) j n = slice file j n :=
  slice_congr fun k hk _ => getElem?_put_of_ge (by omega)

/-- A region a write does not touch keeps its contents. -/
theorem slice_put_of_disjoint (h : j + n ≤ i ∨ i + xs.length ≤ j) (hfile : j + n ≤ file.length) :
    slice (put file i xs) j n = slice file j n := by
  obtain hbefore | hafter := h
  · exact slice_put_before hbefore hfile
  · exact slice_put_after hafter

end Put

section Holds

variable {file xs ys : List α} {i j : ℕ}

/-- A file holds some entries at an offset. -/
def Holds (file : List α) (i : ℕ) (xs : List α) : Prop := slice file i xs.length = xs

theorem holds_nil : Holds file i [] := slice_zero

theorem Holds.end_le (h : Holds file i xs) (hx : xs ≠ []) : i + xs.length ≤ file.length := by
  have hlen := congrArg List.length h
  have hpos : 0 < xs.length := List.length_pos_iff.mpr hx
  rw [length_slice] at hlen
  omega

theorem holds_put [Zero α] : Holds (put file i xs) i xs := slice_put_self

/-- What a file holds outlives the writes that do not touch it. -/
theorem Holds.put [Zero α] (h : Holds file j ys) (hd : j + ys.length ≤ i ∨ i + xs.length ≤ j) :
    Holds (put file i xs) j ys := by
  by_cases hy : ys = []
  · rw [hy]
    exact holds_nil
  · exact (slice_put_of_disjoint hd (h.end_le hy)).trans h

theorem Holds.left (h : Holds file i (xs ++ ys)) : Holds file i xs := by
  have htake : (slice file i (xs ++ ys).length).take xs.length = slice file i xs.length := by
    rw [slice, List.take_take, Nat.min_eq_left (by simp), slice]
  rw [Holds, ← htake, h, List.take_left]

theorem Holds.append (hx : Holds file i xs) (hy : Holds file (i + xs.length) ys) : Holds file i (xs ++ ys) := by
  rw [Holds, List.length_append, slice_add, hx, hy]

end Holds

section Copied

variable {src dst : List α} {i j n : ℕ}

/-- `dst` holds, from `j` on, the `n` entries of `src` from `i` on. -/
structure Copied (src : List α) (i : ℕ) (dst : List α) (j n : ℕ) : Prop where
  inside : 0 < n → i + n ≤ src.length
  holds : Holds dst j (slice src i n)

theorem Copied.length (h : Copied src i dst j n) : (slice src i n).length = n := by
  obtain rfl | hn := Nat.eq_zero_or_pos n
  · rw [slice_zero, List.length_nil]
  · exact length_slice_of_le (h.inside hn)

theorem copied_zero : Copied src i dst j 0 := ⟨nofun, by rw [slice_zero]; exact holds_nil⟩

theorem Copied.slice_eq (h : Copied src i dst j n) : slice dst j n = slice src i n := by
  have hholds := h.holds
  rwa [Holds, h.length] at hholds

/-- A copy outlives the writes beside it. -/
theorem Copied.put [Zero α] {k : ℕ} {xs : List α} (h : Copied src i dst j n)
    (hd : j + n ≤ k ∨ k + xs.length ≤ j) : Copied src i (put dst k xs) j n :=
  ⟨h.inside, h.holds.put (by rw [h.length]; exact hd)⟩

/-- A copy that goes on where it stopped. -/
theorem Copied.extend [Zero α] {m : ℕ} (h : Copied src i dst j n) (hm : i + n + m ≤ src.length) :
    Copied src i (Files.put dst (j + n) (slice src (i + n) m)) j (n + m) := by
  refine ⟨fun _ => by omega, ?_⟩
  rw [slice_add]
  refine Holds.append (h.holds.put (by rw [h.length]; exact .inl (Nat.le_refl _))) ?_
  rw [h.length]
  exact holds_put

/-- A copy of a copy. -/
theorem Copied.trans [Zero α] {mid : List α} {k : ℕ} (h : Copied src i mid j n) :
    Copied src i (Files.put dst k (slice mid j n)) k n := by
  refine ⟨h.inside, ?_⟩
  rw [h.slice_eq]
  exact holds_put

/-- What is copied block by block is copied. -/
theorem copied_of_blocks {b : ℕ} (k : ℕ) (hn : n ≤ k * b)
    (h : ∀ c < k, c * b < n → Copied src (i + c * b) dst (j + c * b) (min b (n - c * b))) :
    Copied src i dst j n := by
  induction k generalizing n with
  | zero =>
    obtain rfl : n = 0 := by omega
    exact copied_zero
  | succ k ih =>
    have hkb : (k + 1) * b = k * b + b := Nat.succ_mul k b
    by_cases hlast : k * b < n
    · have hfirst : Copied src i dst j (k * b) := ih (Nat.le_refl _) fun c hc hcb => by
        have hfull : c * b + b ≤ k * b := by
          rw [← Nat.succ_mul]
          exact Nat.mul_le_mul_right b hc
        have hblock := h c (by omega) (by omega)
        rwa [Nat.min_eq_left (by omega)] at hblock ⊢
      have hblock := h k (by omega) hlast
      rw [Nat.min_eq_right (by omega)] at hblock
      have hsum : n = k * b + (n - k * b) := by omega
      have hholds : Holds dst (j + (slice src i (k * b)).length) (slice src (i + k * b) (n - k * b)) := by
        rw [hfirst.length]
        exact hblock.holds
      have hinside := hblock.inside (by omega)
      refine ⟨by omega, ?_⟩
      rw [hsum, slice_add]
      exact hfirst.holds.append hholds
    · exact ih (by omega) fun c hc hcb => h c (by omega) hcb

end Copied

end Files
