import Mathlib

/-!
# Tournament trees

The least of many keys, one of which changes at a time. One table of `2 * half` entries holds the tree: node `k` stands
above entries `2 * k` and `2 * k + 1`, the leaves are the entries from `half` on, and entry 0 is none. A node is the
least of the two below it, so the root is the least leaf.
-/
namespace Tournament

variable {α : Type*} [LinearOrder α]

/-- Sets a node to the least of the two below it. -/
def node (tree : List α) (k : ℕ) : Option (List α) := do
  let a ← tree[2 * k]?
  let b ← tree[2 * k + 1]?
  some (tree.set k (min a b))

/-- Sets the nodes from `k` down to 1. -/
def build : ℕ → List α → Option (List α)
  | 0, tree => some tree
  | k + 1, tree => node tree (k + 1) >>= build k

/-- Sets the nodes above `k`, up to the first that stays as it is. -/
def climb (tree : List α) (k : ℕ) : Option (List α) :=
  if 1 < k then do
    let a ← tree[k]?
    let b ← tree[k ^^^ 1]?
    let old ← tree[k / 2]?
    if old = min a b then some tree else climb (tree.set (k / 2) (min a b)) (k / 2)
  else some tree
termination_by k

/-- A new key for leaf `i`. -/
def set (tree : List α) (i : ℕ) (key : α) : Option (List α) :=
  let k := tree.length / 2 + i
  if k < tree.length then climb (tree.set k key) k else none

def LeastAt (tree : List α) (k : ℕ) : Prop :=
  ∃ a b, tree[2 * k]? = some a ∧ tree[2 * k + 1]? = some b ∧ tree[k]? = some (min a b)

/-- A tree over `half` leaves. -/
structure Over (half : ℕ) (tree : List α) : Prop where
  length : tree.length = 2 * half
  least : ∀ k, 0 < k → k < half → LeastAt tree k

/-- The leaves of `tree` are those of `old`. -/
def SameLeaves (half : ℕ) (old tree : List α) : Prop := ∀ j, half ≤ j → tree[j]? = old[j]?

variable {tree : List α} {half : ℕ}

/-! ## The root -/

/-- The root is at most anything. -/
theorem Over.root_le (h : Over half tree) {j : ℕ} {a b : α} (hj : 0 < j) (hlt : j < 2 * half) (ha : tree[1]? = some a)
    (hb : tree[j]? = some b) : a ≤ b := by
  induction j using Nat.strong_induction_on generalizing b with
  | _ j ih =>
    rcases Nat.lt_or_ge 1 j with hone | hone
    · obtain ⟨x, y, hx, hy, hmin⟩ := h.least (j / 2) (by omega) (by omega)
      have hup : a ≤ min x y := ih (j / 2) (by omega) (by omega) (by omega) hmin
      rcases Nat.mod_two_eq_zero_or_one j with heven | hodd
      · rw [show 2 * (j / 2) = j by omega, hb] at hx
        rw [Option.some.inj hx]
        exact hup.trans (min_le_left x y)
      · rw [show 2 * (j / 2) + 1 = j by omega, hb] at hy
        rw [Option.some.inj hy]
        exact hup.trans (min_le_right x y)
    · obtain rfl : j = 1 := by omega
      rw [ha] at hb
      exact (Option.some.inj hb).le

/-- Below any entry is a leaf with its key. -/
theorem Over.exists_leaf (h : Over half tree) {k : ℕ} {a : α} (hk : 0 < k) (hlt : k < 2 * half)
    (ha : tree[k]? = some a) : ∃ i < half, tree[half + i]? = some a := by
  induction hn : 2 * half - k using Nat.strong_induction_on generalizing k with
  | _ n ih =>
    rcases Nat.lt_or_ge k half with hnode | hleaf
    · obtain ⟨x, y, hx, hy, hmin⟩ := h.least k hk hnode
      rw [ha] at hmin
      rcases min_choice x y with hx' | hy'
      · rw [← hx', ← Option.some.inj hmin] at hx
        exact ih (2 * half - 2 * k) (by omega) (by omega) (by omega) hx rfl
      · rw [← hy', ← Option.some.inj hmin] at hy
        exact ih (2 * half - (2 * k + 1)) (by omega) (by omega) (by omega) hy rfl
    · refine ⟨k - half, by omega, ?_⟩
      rwa [show half + (k - half) = k by omega]

/-! ## Building -/

theorem LeastAt.of_eq {old : List α} {k : ℕ} (h : LeastAt old k) (hleft : tree[2 * k]? = old[2 * k]?)
    (hright : tree[2 * k + 1]? = old[2 * k + 1]?) (hk : tree[k]? = old[k]?) : LeastAt tree k := by
  obtain ⟨a, b, ha, hb, hmin⟩ := h
  exact ⟨a, b, hleft.trans ha, hright.trans hb, hk.trans hmin⟩

theorem leastAt_set {k : ℕ} {a b : α} (hk : 0 < k) (hlt : k < tree.length) (ha : tree[2 * k]? = some a)
    (hb : tree[2 * k + 1]? = some b) : LeastAt (tree.set k (min a b)) k := by
  refine ⟨a, b, ?_, ?_, List.getElem?_set_self hlt⟩
  · rwa [List.getElem?_set_ne (by omega)]
  · rwa [List.getElem?_set_ne (by omega)]

theorem build_over {k : ℕ} (hlen : tree.length = 2 * half) (hk : k < half ∨ k = 0)
    (h : ∀ q, k < q → q < half → LeastAt tree q) :
    ∃ tree', build k tree = some tree' ∧ Over half tree' ∧ SameLeaves half tree tree' := by
  induction k generalizing tree with
  | zero => exact ⟨tree, rfl, ⟨hlen, h⟩, fun _ _ => rfl⟩
  | succ k ih =>
    have hk : k + 1 < half := by omega
    obtain ⟨a, ha⟩ : ∃ a, tree[2 * (k + 1)]? = some a := ⟨_, List.getElem?_eq_getElem (by omega)⟩
    obtain ⟨b, hb⟩ : ∃ b, tree[2 * (k + 1) + 1]? = some b := ⟨_, List.getElem?_eq_getElem (by omega)⟩
    have hnode : node tree (k + 1) = some (tree.set (k + 1) (min a b)) := by
      simp only [node, ha, hb, bind, Option.bind]
    have hrest : ∀ q, k < q → q < half → LeastAt (tree.set (k + 1) (min a b)) q := by
      intro q hq hlt
      rcases Nat.lt_or_ge (k + 1) q with hgt | hle
      · refine (h q hgt hlt).of_eq ?_ ?_ ?_
        · rw [List.getElem?_set_ne (by omega)]
        · rw [List.getElem?_set_ne (by omega)]
        · rw [List.getElem?_set_ne (by omega)]
      · obtain rfl : q = k + 1 := by omega
        exact leastAt_set (by omega) (by omega) ha hb
    obtain ⟨tree', hbuild, hover, hsame⟩ := ih ((List.length_set ..).trans hlen) (by omega) hrest
    refine ⟨tree', ?_, hover, ?_⟩
    · rw [build, hnode]
      exact hbuild
    · intro j hj
      rw [hsame j hj, List.getElem?_set_ne (by omega)]

/-! ## One new key -/

theorem xor_one (k : ℕ) : k ^^^ 1 = 2 * (k / 2) + (1 - k % 2) := by
  rcases Nat.mod_two_eq_zero_or_one k with heven | hodd
  · rw [Nat.xor_one_of_even (Nat.even_iff.mpr heven)]
    omega
  · rw [Nat.xor_one_of_odd (Nat.odd_iff.mpr hodd)]
    omega

/-- Every node is the least of its two but the one above `k`. -/
theorem climb_over {k : ℕ} (hlen : tree.length = 2 * half) (hk : 0 < k) (hlt : k < 2 * half)
    (h : ∀ q, 0 < q → q < half → q ≠ k / 2 → LeastAt tree q) :
    ∃ tree', climb tree k = some tree' ∧ Over half tree' ∧ SameLeaves half tree tree' := by
  induction k using Nat.strong_induction_on generalizing tree with
  | _ k ih =>
    rw [climb]
    split_ifs with hone
    · have hparent : 0 < k / 2 ∧ k / 2 < half := by omega
      obtain ⟨a, ha⟩ : ∃ a, tree[2 * (k / 2)]? = some a := ⟨_, List.getElem?_eq_getElem (by omega)⟩
      obtain ⟨b, hb⟩ : ∃ b, tree[2 * (k / 2) + 1]? = some b := ⟨_, List.getElem?_eq_getElem (by omega)⟩
      obtain ⟨old, hold⟩ : ∃ old, tree[k / 2]? = some old := ⟨_, List.getElem?_eq_getElem (by omega)⟩
      obtain ⟨x, y, hx, hy, hmin⟩ : ∃ x y, tree[k]? = some x ∧ tree[k ^^^ 1]? = some y ∧ min x y = min a b := by
        rw [xor_one]
        rcases Nat.mod_two_eq_zero_or_one k with heven | hodd
        · refine ⟨a, b, ?_, ?_, rfl⟩
          · rwa [show 2 * (k / 2) = k by omega] at ha
          · rwa [heven]
        · refine ⟨b, a, ?_, ?_, min_comm b a⟩
          · rwa [show 2 * (k / 2) + 1 = k by omega] at hb
          · rwa [hodd]
      simp only [hx, hy, hold, hmin, bind, Option.bind]
      split_ifs with hstop
      · have hover : ∀ q, 0 < q → q < half → LeastAt tree q := by
          intro q hq hlt
          rcases eq_or_ne q (k / 2) with rfl | hne
          · exact ⟨a, b, ha, hb, hstop ▸ hold⟩
          · exact h q hq hlt hne
        exact ⟨tree, rfl, ⟨hlen, hover⟩, fun _ _ => rfl⟩
      · have hrest : ∀ q, 0 < q → q < half → q ≠ k / 2 / 2 → LeastAt (tree.set (k / 2) (min a b)) q := by
          intro q hq hlt hne
          rcases eq_or_ne q (k / 2) with rfl | hq'
          · exact leastAt_set hparent.1 (by omega) ha hb
          · refine (h q hq hlt hq').of_eq ?_ ?_ ?_
            · rw [List.getElem?_set_ne (by omega)]
            · rw [List.getElem?_set_ne (by omega)]
            · rw [List.getElem?_set_ne hq'.symm]
        obtain ⟨tree', hclimb, hover, hsame⟩ :=
          ih (k / 2) (by omega) ((List.length_set ..).trans hlen) hparent.1 (by omega) hrest
        refine ⟨tree', hclimb, hover, ?_⟩
        intro j hj
        rw [hsame j hj, List.getElem?_set_ne (by omega)]
    · exact ⟨tree, rfl, ⟨hlen, fun q hq hlt => h q hq hlt (by omega)⟩, fun _ _ => rfl⟩

/-- A new key for a leaf leaves a tree whose other leaves are as they were. -/
theorem Over.set (h : Over half tree) {i : ℕ} (hi : i < half) (key : α) :
    ∃ tree', Tournament.set tree i key = some tree' ∧ Over half tree' ∧ tree'[half + i]? = some key ∧
      ∀ j, j ≠ i → tree'[half + j]? = tree[half + j]? := by
  have hlen := h.length
  have hhalf : tree.length / 2 = half := by omega
  have hrest : ∀ q, 0 < q → q < half → q ≠ (half + i) / 2 → LeastAt (tree.set (half + i) key) q := by
    intro q hq hlt hne
    refine (h.least q hq hlt).of_eq ?_ ?_ ?_
    · rw [List.getElem?_set_ne (by omega)]
    · rw [List.getElem?_set_ne (by omega)]
    · rw [List.getElem?_set_ne (by omega)]
  obtain ⟨tree', hclimb, hover, hsame⟩ :=
    climb_over ((List.length_set ..).trans hlen) (show 0 < half + i by omega) (by omega) hrest
  refine ⟨tree', ?_, hover, ?_, ?_⟩
  · simp only [Tournament.set, hhalf]
    rw [if_pos (by omega)]
    exact hclimb
  · rw [hsame (half + i) (by omega), List.getElem?_set_self (by omega)]
  · intro j hj
    rw [hsame (half + j) (by omega), List.getElem?_set_ne (by omega)]

end Tournament
