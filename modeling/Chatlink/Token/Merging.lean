import Chatlink.Lib.Bpe
import Chatlink.Lib.Tournament
import Chatlink.Token.Tokenizer

/-!
# Merging

The tokens of a text stand in an array and are linked both ways. A merge writes its token where the left one stood and
takes the right one out; only the merges of two neighbours change with it. A tournament tree of all merges, each as its
rank and then its position, has at its root the one to do next.
-/
namespace Chatlink.Token

/-- The buffers of `encode`. A position is that of a token before anything merged. -/
structure Work where
  ids : List UInt32
  next : List ℕ
  prev : List ℕ
  /-- Each symbol's merge with the next as `rank << 32 | position`. -/
  tree : List ℕ
  /-- What each of those merges makes. -/
  merged : List UInt32
  deriving DecidableEq, Repr

/-- `u64::MAX`: the key of no position. -/
def MAX_KEY : ℕ := 2 ^ 64 - 1

/-- The key of a merge at position `i`. -/
def key (rank : UInt32) (i : ℕ) : ℕ := rank.toNat * 2 ^ 32 + i

namespace Work

section

variable (merge : UInt32 → UInt32 → Option (UInt32 × UInt32)) (w : Work)

/-- The key of symbol `i`'s merge, and what it makes. -/
def keyed (i : ℕ) (m : Option (UInt32 × UInt32)) : ℕ × UInt32 :=
  let m := m.getD (NONE, NONE)
  (key m.1 i, m.2)

/-- Sets the merge of symbol `i` with the next one, and the tree above its key. -/
def set (i : ℕ) (m : ℕ × UInt32) : Option Work :=
  if i < w.merged.length then (Tournament.set w.tree i m.1).map fun tree => { w with tree := tree, merged := w.merged.set i m.2 }
  else none

/-- The merge of symbol `i` with the next one. -/
def after (i : ℕ) : ℕ × UInt32 :=
  keyed i do
    let a ← w.ids[i]?
    let j ← w.next[i]?
    let b ← w.ids[j]?
    merge a b

/-- The merges of a row before any is done. -/
def firsts (ids : List UInt32) : List (ℕ × UInt32) :=
  (ids.zip (ids.drop 1)).zipIdx.map fun p => keyed p.2 (merge p.1.1 p.1.2)

/-- A tree with its leaves, but not its nodes. -/
def leaves (half : ℕ) (firsts : List (ℕ × UInt32)) : List ℕ :=
  List.replicate half MAX_KEY ++ (firsts.map Prod.fst ++ List.replicate (half - firsts.length) MAX_KEY)

/-- All symbols in a row. -/
def begin (ids : List UInt32) : Option Work :=
  let n := ids.length % 2 ^ 32
  let half := 2 ^ Nat.clog 2 ids.length
  (Tournament.build (half - 1) (leaves half (firsts merge ids))).map fun tree =>
    { ids := ids, next := List.range' 1 n, prev := (List.range n).map fun i => (i + (2 ^ 32 - 1)) % 2 ^ 32, tree := tree,
      merged := (firsts merge ids).map Prod.snd ++ [NONE] }

/-- Sets the merge of symbol `i`, if there is that symbol. -/
def renew (n i : ℕ) : Option Work := if i < n then w.set i (w.after merge i) else some w

/-- Does the merge at position `i`. -/
def mergeAt (n i : ℕ) : Option Work := do
  let j ← w.next[i]?
  let made ← w.merged[i]?
  let last ← w.next[j]?
  if i < w.ids.length ∧ j < w.ids.length then do
    let w := { w with ids := (w.ids.set i made).set j NONE, next := w.next.set i last, prev := w.prev.set last i }
    let w ← w.set j (MAX_KEY, NONE)
    let before ← w.prev[i]?
    let w ← w.renew merge n before
    w.renew merge n i
  else none

/-- Merges until the root has no merge. -/
def loop (n : ℕ) : ℕ → Work → Option Work
  | 0, _ => none
  | fuel + 1, w => do
    let top ← w.tree[1]?
    if top / 2 ^ 32 = NONE.toNat then some w
    else do
      let w ← w.mergeAt merge n (top % 2 ^ 32)
      loop n fuel w

end

end Work

/-- Merges symbols, lowest-ranked pair first. -/
def mergeAll (merge : UInt32 → UInt32 → Option (UInt32 × UInt32)) (ids : List UInt32) : Option (List UInt32) := do
  let w ← Work.begin merge ids
  let w ← w.loop merge (ids.length % 2 ^ 32) (ids.length + 1)
  some (w.ids.filter fun id => id ≠ NONE)

/-! ## The row that an array holds -/

variable {merge : UInt32 → UInt32 → Option (UInt32 × UInt32)}

/-- The merges that have a rank. -/
def usable (merge : UInt32 → UInt32 → Option (UInt32 × UInt32)) (a b : UInt32) : Option (ℕ × UInt32) :=
  ((merge a b).filter fun m => m.1 ≠ NONE).map fun m => (m.1.toNat, m.2)

/-- A key without a rank. -/
def Idle (k : Option ℕ) : Prop := ∃ x, k = some x ∧ x / 2 ^ 32 = NONE.toNat

/-- The leaf of symbol `i` has the merge of `a` and `b`. -/
def Work.Leaf (merge : UInt32 → UInt32 → Option (UInt32 × UInt32)) (half : ℕ) (w : Work) (i : ℕ) (a b : UInt32) : Prop :=
  match usable merge a b with
  | some m => w.tree[half + i]? = some (m.1 * 2 ^ 32 + i) ∧ w.merged[i]? = some m.2
  | none => Idle w.tree[half + i]?

/-- Two neighbours. -/
structure Work.Linked (merge : UInt32 → UInt32 → Option (UInt32 × UInt32)) (half : ℕ) (w : Work) (p q : ℕ × UInt32) : Prop where
  order : p.1 < q.1
  next : w.next[p.1]? = some q.1
  prev : w.prev[q.1]? = some p.1
  leaf : w.Leaf merge half p.1 p.2 q.2

/-- The buffers hold a row of symbols, each with its position. -/
structure Work.Holds (merge : UInt32 → UInt32 → Option (UInt32 × UInt32)) (n half : ℕ) (w : Work) (row : List (ℕ × UInt32)) :
    Prop where
  short : n < 2 ^ 32
  room : n ≤ half
  ids_length : w.ids.length = n
  next_length : w.next.length = n
  prev_length : w.prev.length = n
  merged_length : n ≤ w.merged.length
  tree : Tournament.Over half w.tree
  inside : ∀ p ∈ row, p.1 < n
  ids : ∀ p ∈ row, w.ids[p.1]? = some p.2
  linked : row.IsChain (w.Linked merge half)
  first : ∀ p ∈ row.head?, w.prev[p.1]? = some (2 ^ 32 - 1)
  last : ∀ p ∈ row.getLast?, w.next[p.1]? = some n ∧ Idle w.tree[half + p.1]?
  dead : ∀ i < n, i ∉ row.map Prod.fst → w.ids[i]? = some NONE
  off : ∀ i < half, i ∉ row.map Prod.fst → Idle w.tree[half + i]?

theorem key_div {m : ℕ × UInt32} {a b : UInt32} {i : ℕ} (h : usable merge a b = some m) (hi : i < 2 ^ 32) :
    (m.1 * 2 ^ 32 + i) / 2 ^ 32 = m.1 ∧ (m.1 * 2 ^ 32 + i) % 2 ^ 32 = i ∧ m.1 ≠ NONE.toNat := by
  refine ⟨by omega, by omega, ?_⟩
  rw [usable] at h
  obtain ⟨r, hr, rfl⟩ := Option.map_eq_some_iff.mp h
  have hne := (Option.filter_eq_some_iff.mp hr).2
  intro heq
  exact absurd (UInt32.toNat_inj.mp heq) (by simpa using hne)

section

variable {n half : ℕ} {w : Work} {row : List (ℕ × UInt32)}

theorem Work.Holds.sorted (h : w.Holds merge n half row) : row.Pairwise fun p q => p.1 < q.1 := by
  have : IsTrans (ℕ × UInt32) fun p q => p.1 < q.1 := ⟨fun _ _ _ => lt_trans⟩
  exact List.isChain_iff_pairwise.mp (h.linked.imp fun p q hpq => hpq.order)

theorem Work.Linked.leaf_eq {p q : ℕ × UInt32} {m : ℕ × UInt32} (h : w.Linked merge half p q)
    (hm : usable merge p.2 q.2 = some m) : w.tree[half + p.1]? = some (m.1 * 2 ^ 32 + p.1) ∧ w.merged[p.1]? = some m.2 := by
  have hleaf := h.leaf
  rwa [Work.Leaf, hm] at hleaf

theorem Work.Holds.root_le (h : w.Holds merge n half row) {top : ℕ} (htop : w.tree[1]? = some top) {p q : ℕ × UInt32}
    {m : ℕ × UInt32} (hpq : w.Linked merge half p q) (hp : p ∈ row) (hm : usable merge p.2 q.2 = some m) :
    top ≤ m.1 * 2 ^ 32 + p.1 := by
  have hroom := h.room
  have hlt := h.inside p hp
  exact h.tree.root_le (show 0 < half + p.1 by omega) (by omega) htop (hpq.leaf_eq hm).1

/-- Before the symbol that the root names, no merge has its rank or a lower one. -/
theorem Work.Holds.above_root {pre tail : List (ℕ × UInt32)} {p : ℕ × UInt32} {rank : ℕ}
    (h : w.Holds merge n half (pre ++ p :: tail)) (htop : w.tree[1]? = some (rank * 2 ^ 32 + p.1)) :
    (pre.map Prod.snd ++ [p.2]).IsChain (Bpe.Above (usable merge) rank) := by
  have hshort := h.short
  rw [show [p.2] = [p].map Prod.snd from rfl, ← List.map_append, List.isChain_map]
  have hchain : (pre ++ [p]).IsChain (w.Linked merge half) := by
    have hlinked := h.linked
    rw [List.append_cons] at hlinked
    exact hlinked.left_of_append
  refine hchain.imp_of_mem_imp ?_
  intro x y hx hy hxy s hs
  have hle : y.1 ≤ p.1 := by
    rcases List.mem_append.mp hy with hy | hy
    · exact ((List.pairwise_append.mp h.sorted).2.2 y hy p List.mem_cons_self).le
    · exact (congrArg Prod.fst (List.mem_singleton.mp hy)).le
  have hmem : x ∈ pre ++ p :: tail := by
    rw [List.append_cons]
    exact List.mem_append_left tail hx
  have hroot := h.root_le htop hxy hmem hs
  have hlt := h.inside x hmem
  have horder := hxy.order
  omega

/-- Behind it, none has a lower one. -/
theorem Work.Holds.notBelow_root {pre tail : List (ℕ × UInt32)} {p : ℕ × UInt32} {rank : ℕ}
    (h : w.Holds merge n half (pre ++ p :: tail)) (htop : w.tree[1]? = some (rank * 2 ^ 32 + p.1)) :
    (tail.map Prod.snd).IsChain (Bpe.NotBelow (usable merge) rank) := by
  have hshort := h.short
  rw [List.isChain_map]
  have hchain : tail.IsChain (w.Linked merge half) := (List.IsChain.right_of_append h.linked).tail
  refine hchain.imp_of_mem_imp ?_
  intro x y hx hy hxy s hs
  have hmem : x ∈ pre ++ p :: tail := List.mem_append_right pre (List.mem_cons_of_mem p hx)
  have hroot := h.root_le htop hxy hmem hs
  have hlt := h.inside x hmem
  omega

/-- The root names the first neighbours of the lowest rank. -/
theorem Work.Holds.top (h : w.Holds merge n half row) {top : ℕ} (htop : w.tree[1]? = some top)
    (hne : top / 2 ^ 32 ≠ NONE.toNat) :
    ∃ pre p q rest m, row = pre ++ p :: q :: rest ∧ usable merge p.2 q.2 = some m ∧ top % 2 ^ 32 = p.1 ∧
      Bpe.step (usable merge) (row.map Prod.snd) = pre.map Prod.snd ++ m.2 :: rest.map Prod.snd := by
  have hlen := h.tree.length
  have hlt : 1 < w.tree.length := (List.getElem?_eq_some_iff.mp htop).1
  obtain ⟨i, hi, hleaf⟩ := h.tree.exists_leaf Nat.one_pos (by omega) htop
  have hmem : i ∈ row.map Prod.fst := by
    by_contra hoff
    obtain ⟨x, hx, hidle⟩ := h.off i hi hoff
    rw [hleaf] at hx
    exact hne (Option.some.inj hx ▸ hidle)
  obtain ⟨p, hp, rfl⟩ := List.mem_map.mp hmem
  obtain ⟨pre, tail, hrow⟩ := List.append_of_mem hp
  cases tail with
  | nil =>
    obtain ⟨-, x, hx, hidle⟩ := h.last p (by simp [hrow])
    rw [hleaf] at hx
    exact absurd (Option.some.inj hx ▸ hidle) hne
  | cons q rest =>
    have hlinked := h.linked
    rw [hrow] at hlinked
    obtain ⟨-, hpq, -⟩ := List.isChain_append.mp hlinked
    obtain ⟨hpq, -⟩ := List.isChain_cons_cons.mp hpq
    obtain ⟨m, hm⟩ : ∃ m, usable merge p.2 q.2 = some m := by
      cases hm : usable merge p.2 q.2 with
      | some m => exact ⟨m, rfl⟩
      | none =>
        have hidle := hpq.leaf
        rw [Work.Leaf, hm] at hidle
        obtain ⟨x, hx, hidle⟩ := hidle
        rw [hleaf] at hx
        exact absurd (Option.some.inj hx ▸ hidle) hne
    have hkey : top = m.1 * 2 ^ 32 + p.1 := by
      rw [(hpq.leaf_eq hm).1] at hleaf
      exact (Option.some.inj hleaf).symm
    have hat : top % 2 ^ 32 = p.1 := by
      rw [hkey]
      exact (key_div hm ((h.inside p hp).trans h.short)).2.1
    subst hrow
    rw [hkey] at htop
    refine ⟨pre, p, q, rest, m, rfl, hm, hat, ?_⟩
    rw [List.map_append, List.map_cons, List.map_cons]
    exact Bpe.step_of hm (h.above_root htop) (h.notBelow_root htop)

/-! ## One merge -/

/-- The buffers after symbol `i` has a new merge, if there is that symbol. -/
structure Work.Renewed (n half : ℕ) (w : Work) (i : ℕ) (m : ℕ × UInt32) (w' : Work) : Prop where
  ids : w'.ids = w.ids
  next : w'.next = w.next
  prev : w'.prev = w.prev
  tree : Tournament.Over half w'.tree
  length : w'.merged.length = w.merged.length
  other : ∀ j, j ≠ i ∨ n ≤ i → w'.tree[half + j]? = w.tree[half + j]? ∧ w'.merged[j]? = w.merged[j]?
  new : i < n → w'.tree[half + i]? = some m.1 ∧ w'.merged[i]? = some m.2

theorem Work.set_renewed {i : ℕ} (htree : Tournament.Over half w.tree) (hi : i < n) (hroom : n ≤ half)
    (hlen : n ≤ w.merged.length) (m : ℕ × UInt32) : ∃ w', w.set i m = some w' ∧ Work.Renewed n half w i m w' := by
  obtain ⟨tree, hset, hover, hnew, hother⟩ := htree.set (hi.trans_le hroom) m.1
  have hw : w.set i m = some { w with tree := tree, merged := w.merged.set i m.2 } := by
    rw [Work.set, if_pos (hi.trans_le hlen), hset]
    rfl
  refine ⟨_, hw, rfl, rfl, rfl, hover, List.length_set .., ?_, ?_⟩
  · intro j hj
    have hne : j ≠ i := by omega
    exact ⟨hother j hne, List.getElem?_set_ne hne.symm⟩
  · intro hi
    exact ⟨hnew, List.getElem?_set_self (hi.trans_le hlen)⟩

theorem Work.renew_renewed (htree : Tournament.Over half w.tree) (hroom : n ≤ half) (hlen : n ≤ w.merged.length) (i : ℕ) :
    ∃ w', w.renew merge n i = some w' ∧ Work.Renewed n half w i (w.after merge i) w' := by
  rcases Nat.lt_or_ge i n with hi | hi
  · obtain ⟨w', hset, hrenewed⟩ := Work.set_renewed htree hi hroom hlen (w.after merge i)
    exact ⟨w', by rw [Work.renew, if_pos hi, hset], hrenewed⟩
  · refine ⟨w, by rw [Work.renew, if_neg (Nat.not_lt.mpr hi)], rfl, rfl, rfl, htree, rfl, fun _ _ => ⟨rfl, rfl⟩, ?_⟩
    intro hlt
    omega

theorem idle_key {i : ℕ} (hi : i < 2 ^ 32) : Idle (some (key NONE i)) := by
  refine ⟨_, rfl, ?_⟩
  rw [key]
  omega

theorem Work.leaf_of_keyed {i : ℕ} {a b : UInt32} (hi : i < 2 ^ 32)
    (hnew : w.tree[half + i]? = some (Work.keyed i (merge a b)).1 ∧ w.merged[i]? = some (Work.keyed i (merge a b)).2) :
    w.Leaf merge half i a b := by
  rw [Work.Leaf, usable]
  cases hm : merge a b with
  | none =>
    rw [hm] at hnew
    rw [hnew.1]
    exact idle_key hi
  | some m =>
    rw [hm] at hnew
    by_cases hrank : m.1 = NONE
    · have hfilter : (some m).filter (fun m => m.1 ≠ NONE) = none := by simp [hrank]
      have hkey : (Work.keyed i (some m)).1 = key NONE i := by rw [← hrank]; rfl
      rw [hfilter, hnew.1, hkey]
      exact idle_key hi
    · have hfilter : (some m).filter (fun m => m.1 ≠ NONE) = some m := by simp [hrank]
      rw [hfilter]
      exact hnew

/-- The leaf that `after` gives. -/
theorem Work.leaf_of_after {w₀ : Work} {i j : ℕ} {a b : UInt32} (hi : i < 2 ^ 32) (ha : w₀.ids[i]? = some a)
    (hj : w₀.next[i]? = some j) (hb : w₀.ids[j]? = some b)
    (hnew : w.tree[half + i]? = some (w₀.after merge i).1 ∧ w.merged[i]? = some (w₀.after merge i).2) :
    w.Leaf merge half i a b := by
  have hafter : w₀.after merge i = Work.keyed i (merge a b) := by
    simp only [Work.after, ha, hj, hb, bind, Option.bind]
  rw [hafter] at hnew
  exact Work.leaf_of_keyed hi hnew

/-- The position behind a row's beginning, and the one before its end. -/
def nextOf (n : ℕ) (rest : List (ℕ × UInt32)) : ℕ := (rest.head?.map Prod.fst).getD n

def prevOf (pre : List (ℕ × UInt32)) : ℕ := (pre.getLast?.map Prod.fst).getD (2 ^ 32 - 1)

/-- The buffers after a merge of neighbours at `i` and `j`, which stand between `before` and `last`. -/
structure Work.Merged (merge : UInt32 → UInt32 → Option (UInt32 × UInt32)) (n half : ℕ) (w : Work) (i j before last : ℕ)
    (made : UInt32) (w' : Work) : Prop where
  ids : w'.ids = (w.ids.set i made).set j NONE
  next : w'.next = w.next.set i last
  prev : w'.prev = w.prev.set last i
  tree : Tournament.Over half w'.tree
  length : w'.merged.length = w.merged.length
  other : ∀ k, k ≠ i → k ≠ j → k ≠ before ∨ n ≤ before →
    w'.tree[half + k]? = w.tree[half + k]? ∧ w'.merged[k]? = w.merged[k]?
  gone : w'.tree[half + j]? = some MAX_KEY
  here : w'.tree[half + i]? = some (w'.after merge i).1 ∧ w'.merged[i]? = some (w'.after merge i).2
  there : before < n → w'.tree[half + before]? = some (w'.after merge before).1 ∧
    w'.merged[before]? = some (w'.after merge before).2

theorem Work.after_congr {w' : Work} (hids : w'.ids = w.ids) (hnext : w'.next = w.next) (i : ℕ) :
    w'.after merge i = w.after merge i := by
  simp only [Work.after, hids, hnext]

theorem Work.mergeAt_merged {i j before last : ℕ} {made : UInt32} (htree : Tournament.Over half w.tree) (hroom : n ≤ half)
    (hids : w.ids.length = n) (hlen : n ≤ w.merged.length) (hj : w.next[i]? = some j) (hmade : w.merged[i]? = some made)
    (hlast : w.next[j]? = some last) (hbefore : (w.prev.set last i)[i]? = some before) (hi : i < n) (hjn : j < n)
    (hij : i ≠ j) (hib : before ≠ i) (hjb : before ≠ j) :
    ∃ w', w.mergeAt merge n i = some w' ∧ Work.Merged merge n half w i j before last made w' := by
  have hin : i < w.ids.length ∧ j < w.ids.length := by omega
  obtain ⟨w₂, hset, h₂⟩ := @Work.set_renewed n half
    { w with ids := (w.ids.set i made).set j NONE, next := w.next.set i last, prev := w.prev.set last i } j htree hjn hroom
    hlen (MAX_KEY, NONE)
  have hprev : w₂.prev[i]? = some before := by rwa [h₂.prev]
  obtain ⟨w₃, hthere, h₃⟩ := @Work.renew_renewed merge n half w₂ h₂.tree hroom (h₂.length.symm ▸ hlen) before
  obtain ⟨w₄, hhere, h₄⟩ := @Work.renew_renewed merge n half w₃ h₃.tree hroom (h₃.length.symm ▸ h₂.length.symm ▸ hlen) i
  refine ⟨w₄, ?_, ?_⟩
  · simp only [Work.mergeAt, hj, hmade, hlast, bind, Option.bind, if_pos hin, hset, hprev, hthere, hhere]
  · have hthere' : before < n → w₄.tree[half + before]? = some (w₄.after merge before).1 ∧
        w₄.merged[before]? = some (w₄.after merge before).2 := by
      intro hb
      rw [Work.after_congr (h₄.ids.trans h₃.ids) (h₄.next.trans h₃.next), (h₄.other before (Or.inl hib)).1,
        (h₄.other before (Or.inl hib)).2]
      exact h₃.new hb
    have hhere' : w₄.tree[half + i]? = some (w₄.after merge i).1 ∧ w₄.merged[i]? = some (w₄.after merge i).2 := by
      rw [Work.after_congr h₄.ids h₄.next]
      exact h₄.new hi
    refine ⟨?_, ?_, ?_, h₄.tree, ?_, ?_, ?_, hhere', hthere'⟩
    · rw [h₄.ids, h₃.ids, h₂.ids]
    · rw [h₄.next, h₃.next, h₂.next]
    · rw [h₄.prev, h₃.prev, h₂.prev]
    · rw [h₄.length, h₃.length, h₂.length]
    · intro k hki hkj hkb
      have h₄' := h₄.other k (Or.inl hki)
      have h₃' := h₃.other k hkb
      have h₂' := h₂.other k (Or.inl hkj)
      exact ⟨h₄'.1.trans (h₃'.1.trans h₂'.1), h₄'.2.trans (h₃'.2.trans h₂'.2)⟩
    · rw [(h₄.other j (Or.inl hij.symm)).1, (h₃.other j (Or.inl hjb.symm)).1]
      exact (h₂.new hjn).1

end

section

variable {n half : ℕ} {w w' : Work} {pre rest : List (ℕ × UInt32)} {p q : ℕ × UInt32} {made : UInt32}

/-- Where the neighbours of a merge stand. -/
structure Work.Placed (n : ℕ) (pre rest : List (ℕ × UInt32)) (p q : ℕ × UInt32) : Prop where
  order : p.1 < q.1
  inside : q.1 < n
  pre_lt : ∀ x ∈ pre, x.1 < p.1
  lt_rest : ∀ y ∈ rest, q.1 < y.1
  next_le : ∀ y ∈ rest, nextOf n rest ≤ y.1
  lt_next : q.1 < nextOf n rest
  prev_ge : ∀ x ∈ pre, x.1 ≤ prevOf pre ∧ prevOf pre < p.1
  prev_nil : pre = [] → prevOf pre = 2 ^ 32 - 1

theorem Work.Holds.placed (h : w.Holds merge n half (pre ++ p :: q :: rest)) : Work.Placed n pre rest p q := by
  obtain ⟨-, hpq, hpre⟩ := List.pairwise_append.mp h.sorted
  obtain ⟨hp, hq⟩ := List.pairwise_cons.mp hpq
  obtain ⟨hq, hrest⟩ := List.pairwise_cons.mp hq
  have hlt : ∀ x ∈ pre, x.1 < p.1 := fun x hx => hpre x hx p List.mem_cons_self
  have hqn : q.1 < n := h.inside q (by simp)
  have hsorted : pre.Pairwise fun x y => x.1 < y.1 := (List.pairwise_append.mp h.sorted).1
  refine ⟨hp q List.mem_cons_self, hqn, hlt, hq, ?_, ?_, ?_, ?_⟩
  · intro y hy
    cases rest with
    | nil => exact absurd hy List.not_mem_nil
    | cons r rest =>
      rcases List.mem_cons.mp hy with rfl | hy
      · exact le_rfl
      · exact ((List.pairwise_cons.mp hrest).1 y hy).le
  · cases rest with
    | nil => exact hqn
    | cons r rest => exact hq r List.mem_cons_self
  · intro x hx
    rcases List.eq_nil_or_concat pre with rfl | ⟨pre, z, rfl⟩
    · exact absurd hx List.not_mem_nil
    · have hz : prevOf (pre.concat z) = z.1 := by simp [prevOf]
      rw [List.concat_eq_append] at hx hsorted hlt
      rw [hz]
      refine ⟨?_, hlt z (by simp)⟩
      rcases List.mem_append.mp hx with hx | hx
      · exact ((List.pairwise_append.mp hsorted).2.2 x hx z (by simp)).le
      · exact (congrArg Prod.fst (List.mem_singleton.mp hx)).le
  · rintro rfl
    rfl

theorem Work.Holds.next_eq (h : w.Holds merge n half (pre ++ p :: q :: rest)) : w.next[q.1]? = some (nextOf n rest) := by
  cases rest with
  | nil => exact (h.last q (by simp)).1
  | cons r rest =>
    have hq := (List.isChain_append.mp h.linked).2.1.tail
    exact (List.isChain_cons_cons.mp hq).1.next

theorem Work.Holds.prev_eq (h : w.Holds merge n half (pre ++ p :: q :: rest)) : w.prev[p.1]? = some (prevOf pre) := by
  rcases List.eq_nil_or_concat pre with rfl | ⟨pre, z, rfl⟩
  · exact h.first p (by simp)
  · have hz : prevOf (pre.concat z) = z.1 := by simp [prevOf]
    rw [hz]
    have hlinked := h.linked
    rw [List.concat_eq_append, List.append_assoc] at hlinked
    exact (List.isChain_cons_cons.mp (List.isChain_append.mp hlinked).2.1).1.prev

/-- Neighbours that have no part in a merge. -/
theorem Work.Merged.linked (hw : Work.Merged merge n half w p.1 q.1 (prevOf pre) (nextOf n rest) made w')
    {x y : ℕ × UInt32} (hxy : w.Linked merge half x y) (hp : x.1 ≠ p.1) (hq : x.1 ≠ q.1)
    (hprev : x.1 ≠ prevOf pre ∨ n ≤ prevOf pre)
    (hnext : y.1 ≠ nextOf n rest) : w'.Linked merge half x y := by
  obtain ⟨htree, hmerged⟩ := hw.other x.1 hp hq hprev
  refine ⟨hxy.order, ?_, ?_, ?_⟩
  · rw [hw.next, List.getElem?_set_ne hp.symm]
    exact hxy.next
  · rw [hw.prev, List.getElem?_set_ne hnext.symm]
    exact hxy.prev
  · have hleaf := hxy.leaf
    rwa [Work.Leaf, ← htree, ← hmerged] at hleaf

theorem Work.Placed.before (h : Work.Placed n pre rest p q) (hn : n < 2 ^ 32) : prevOf pre < p.1 ∨ n ≤ prevOf pre := by
  cases pre with
  | nil =>
    rw [h.prev_nil rfl]
    omega
  | cons x pre => exact Or.inl (h.prev_ge x List.mem_cons_self).2

theorem Work.Merged.ids_eq (hw : Work.Merged merge n half w p.1 q.1 (prevOf pre) (nextOf n rest) made w')
    (h : w.Holds merge n half (pre ++ p :: q :: rest)) {x : ℕ × UInt32} (hx : x ∈ pre ++ (p.1, made) :: rest) :
    w'.ids[x.1]? = some x.2 := by
  have hplaced := h.placed
  have horder := hplaced.order
  have hinside := hplaced.inside
  rw [hw.ids]
  rcases List.mem_append.mp hx with hx | hx
  · have hlt := hplaced.pre_lt x hx
    rw [List.getElem?_set_ne (by omega), List.getElem?_set_ne (by omega)]
    exact h.ids x (List.mem_append_left _ hx)
  · rcases List.mem_cons.mp hx with rfl | hx
    · rw [List.getElem?_set_ne horder.ne', List.getElem?_set_self (by rw [h.ids_length]; omega)]
    · have hlt := hplaced.lt_rest x hx
      rw [List.getElem?_set_ne (by omega), List.getElem?_set_ne (by omega)]
      exact h.ids x (by simp [hx])

/-- The token of a merge and what stands behind it. -/
theorem Work.Merged.linked_next {r : ℕ × UInt32} {tail : List (ℕ × UInt32)}
    (hw : Work.Merged merge n half w p.1 q.1 (prevOf pre) (nextOf n (r :: tail)) made w')
    (h : w.Holds merge n half (pre ++ p :: q :: r :: tail)) : w'.Linked merge half (p.1, made) r := by
  have hplaced := h.placed
  have horder := hplaced.order
  have hrest := hplaced.lt_rest r List.mem_cons_self
  have hr : r.1 < n := h.inside r (by simp)
  have hshort := h.short
  have hnext : w'.next[p.1]? = some r.1 := by
    rw [hw.next, List.getElem?_set_self (by rw [h.next_length]; omega)]
    rfl
  refine ⟨horder.trans hrest, hnext, ?_, ?_⟩
  · rw [hw.prev]
    exact List.getElem?_set_self (by rw [h.prev_length]; exact hr)
  · have hmade : w'.ids[p.1]? = some made := hw.ids_eq h (x := (p.1, made)) (by simp)
    have hr : w'.ids[r.1]? = some r.2 := hw.ids_eq h (by simp)
    exact Work.leaf_of_after (by omega) hmade hnext hr hw.here

/-- The token of a merge and what stands before it. -/
theorem Work.Merged.linked_prev {z : ℕ × UInt32} {init : List (ℕ × UInt32)}
    (hw : Work.Merged merge n half w p.1 q.1 (prevOf (init ++ [z])) (nextOf n rest) made w')
    (h : w.Holds merge n half (init ++ [z] ++ p :: q :: rest)) : w'.Linked merge half z (p.1, made) := by
  have hplaced := h.placed
  have horder := hplaced.order
  have hnext := hplaced.lt_next
  have hz := hplaced.pre_lt z (by simp)
  have hinside := hplaced.inside
  have hshort := h.short
  have hzp : w.Linked merge half z p := by
    have hlinked := h.linked
    rw [List.append_assoc] at hlinked
    exact (List.isChain_cons_cons.mp (List.isChain_append.mp hlinked).2.1).1
  have hznext : w'.next[z.1]? = some p.1 := by
    rw [hw.next, List.getElem?_set_ne hz.ne']
    exact hzp.next
  refine ⟨hz, hznext, ?_, ?_⟩
  · rw [hw.prev, List.getElem?_set_ne (by omega)]
    exact hzp.prev
  · have hthere := hw.there
    rw [show prevOf (init ++ [z]) = z.1 by simp [prevOf]] at hthere
    have hzid : w'.ids[z.1]? = some z.2 := hw.ids_eq h (by simp)
    have hmade : w'.ids[p.1]? = some made := hw.ids_eq h (x := (p.1, made)) (by simp)
    exact Work.leaf_of_after (by omega) hzid hznext hmade (hthere (by omega))

/-- A merge keeps the row, with its token for the two. -/
theorem Work.Holds.merged (h : w.Holds merge n half (pre ++ p :: q :: rest))
    (hw : Work.Merged merge n half w p.1 q.1 (prevOf pre) (nextOf n rest) made w') :
    w'.Holds merge n half (pre ++ (p.1, made) :: rest) := by
  have hplaced := h.placed
  have horder := hplaced.order
  have hnext := hplaced.lt_next
  have hbefore := hplaced.before h.short
  have hlinked := h.linked
  obtain ⟨hpre, hpq, -⟩ := List.isChain_append.mp hlinked
  have hrest : rest.IsChain (w.Linked merge half) := hpq.tail.tail
  refine {
    short := h.short
    room := h.room
    ids_length := ?_
    next_length := ?_
    prev_length := ?_
    merged_length := hw.length.symm ▸ h.merged_length
    tree := hw.tree
    inside := ?_
    ids := fun x hx => hw.ids_eq h hx
    linked := ?_
    first := ?_
    last := ?_
    dead := ?_
    off := ?_ }
  · rw [hw.ids, List.length_set, List.length_set, h.ids_length]
  · rw [hw.next, List.length_set, h.next_length]
  · rw [hw.prev, List.length_set, h.prev_length]
  · intro x hx
    rcases List.mem_append.mp hx with hx | hx
    · exact h.inside x (List.mem_append_left _ hx)
    · rcases List.mem_cons.mp hx with rfl | hx
      · exact h.inside p (by simp)
      · exact h.inside x (by simp [hx])
  · refine List.isChain_append.mpr ⟨?_, List.isChain_cons.mpr ⟨?_, ?_⟩, ?_⟩
    · refine hpre.imp_of_mem_imp ?_
      intro x y hx hy hxy
      have hxlt := hplaced.pre_lt x hx
      have hylt := hplaced.pre_lt y hy
      have hle := (hplaced.prev_ge y hy).1
      have hxylt := hxy.order
      exact hw.linked hxy (by omega) (by omega) (by omega) (by omega)
    · intro r hr
      cases rest with
      | nil => cases hr
      | cons s rest =>
        obtain rfl : s = r := Option.some.inj hr
        exact hw.linked_next h
    · refine hrest.imp_of_mem_imp ?_
      intro x y hx hy hxy
      have hxlt := hplaced.lt_rest x hx
      have hle := hplaced.next_le x hx
      have hxylt := hxy.order
      exact hw.linked hxy (by omega) (by omega) (by omega) (by omega)
    · intro z hz y hy
      obtain rfl : (p.1, made) = y := Option.some.inj hy
      obtain ⟨init, rfl⟩ := List.getLast?_eq_some_iff.mp hz
      exact hw.linked_prev h
  · intro x hx
    have hfirst : ∀ y ∈ (pre ++ p :: q :: rest).head?, y.1 = x.1 → w'.prev[x.1]? = some (2 ^ 32 - 1) := by
      intro y hy hyx
      have hne : nextOf n rest ≠ x.1 := by
        cases pre with
        | nil =>
          obtain rfl : (p.1, made) = x := Option.some.inj hx
          exact (horder.trans hnext).ne'
        | cons z pre =>
          obtain rfl : z = x := Option.some.inj hx
          have hlt := hplaced.pre_lt z List.mem_cons_self
          omega
      rw [hw.prev, List.getElem?_set_ne hne, ← hyx]
      exact h.first y hy
    cases pre with
    | nil =>
      obtain rfl : (p.1, made) = x := Option.some.inj hx
      exact hfirst p rfl rfl
    | cons z pre =>
      obtain rfl : z = x := Option.some.inj hx
      exact hfirst z rfl rfl
  · intro x hx
    cases rest with
    | nil =>
      obtain rfl : (p.1, made) = x := by simpa using hx
      have hlast : w'.next[p.1]? = some n := by
        rw [hw.next, List.getElem?_set_self (by rw [h.next_length]; exact h.inside p (by simp))]
        rfl
      refine ⟨hlast, ?_⟩
      have hnone : w'.ids[n]? = none := by
        rw [List.getElem?_eq_none_iff, hw.ids, List.length_set, List.length_set, h.ids_length]
      have hafter : (w'.after merge p.1).1 = key NONE p.1 := by
        simp only [Work.after, hlast, hnone, bind, Option.bind]
        cases w'.ids[p.1]? <;> rfl
      rw [hw.here.1, hafter]
      exact idle_key ((h.inside p (by simp)).trans h.short)
    | cons r rest =>
      have hxlast : x ∈ (pre ++ p :: q :: r :: rest).getLast? := by simpa using hx
      have hmem : x ∈ r :: rest := List.mem_of_getLast? (by simpa using hx)
      have hlt := hplaced.lt_rest x hmem
      obtain ⟨hlast, hidle⟩ := h.last x hxlast
      rw [hw.next, List.getElem?_set_ne (by omega), (hw.other x.1 (by omega) (by omega) (by omega)).1]
      exact ⟨hlast, hidle⟩
  · intro i hi hrow
    simp only [List.map_append, List.map_cons, List.mem_append, List.mem_cons, not_or] at hrow
    rw [hw.ids]
    rcases eq_or_ne i q.1 with rfl | hne
    · exact List.getElem?_set_self (by rw [List.length_set, h.ids_length]; exact hi)
    · rw [List.getElem?_set_ne hne.symm, List.getElem?_set_ne (Ne.symm hrow.2.1)]
      refine h.dead i hi ?_
      simp only [List.map_append, List.map_cons, List.mem_append, List.mem_cons, not_or]
      exact ⟨hrow.1, hrow.2.1, hne, hrow.2.2⟩
  · intro i hi hrow
    simp only [List.map_append, List.map_cons, List.mem_append, List.mem_cons, not_or] at hrow
    rcases eq_or_ne i q.1 with rfl | hne
    · rw [hw.gone]
      exact ⟨MAX_KEY, rfl, by decide⟩
    · have hprev : i ≠ prevOf pre ∨ n ≤ prevOf pre := by
        rcases List.eq_nil_or_concat pre with rfl | ⟨init, z, rfl⟩
        · exact Or.inr (hplaced.prev_nil rfl ▸ Nat.le_sub_one_of_lt h.short)
        · have hz : prevOf (init.concat z) = z.1 := by simp [prevOf]
          rw [hz]
          refine Or.inl ?_
          rintro rfl
          exact hrow.1 (List.mem_map_of_mem (by simp))
      rw [(hw.other i hrow.2.1 hne hprev).1]
      refine h.off i hi ?_
      simp only [List.map_append, List.map_cons, List.mem_append, List.mem_cons, not_or]
      exact ⟨hrow.1, hrow.2.1, hne, hrow.2.2⟩

/-- A merge of two neighbours of the row. -/
theorem Work.Holds.mergeAt (h : w.Holds merge n half (pre ++ p :: q :: rest)) {m : ℕ × UInt32}
    (hm : usable merge p.2 q.2 = some m) :
    ∃ w', w.mergeAt merge n p.1 = some w' ∧ w'.Holds merge n half (pre ++ (p.1, m.2) :: rest) := by
  have hplaced := h.placed
  have horder := hplaced.order
  have hinside := hplaced.inside
  have hnext := hplaced.lt_next
  have hbefore := hplaced.before h.short
  have hpq := (List.isChain_cons_cons.mp (List.isChain_append.mp h.linked).2.1).1
  have hprev : (w.prev.set (nextOf n rest) p.1)[p.1]? = some (prevOf pre) := by
    rw [List.getElem?_set_ne (by omega)]
    exact h.prev_eq
  obtain ⟨w', hw, hmerged⟩ := Work.mergeAt_merged h.tree h.room h.ids_length h.merged_length hpq.next (hpq.leaf_eq hm).2
    h.next_eq hprev (by omega) hinside (by omega) (by omega) (by omega)
  exact ⟨w', hw, h.merged hmerged⟩

/-! ## A whole run -/

theorem Work.Holds.lowest_of_idle (h : w.Holds merge n half row) {top : ℕ} (htop : w.tree[1]? = some top)
    (hidle : top / 2 ^ 32 = NONE.toNat) : Bpe.lowest (usable merge) (row.map Prod.snd) = none := by
  rw [Bpe.lowest_eq_none, List.isChain_map]
  refine h.linked.imp_of_mem_imp ?_
  intro x y hx hy hxy
  cases hm : usable merge x.2 y.2 with
  | none => rfl
  | some m =>
    have hroot := h.root_le htop hxy hx hm
    have hlt := (h.inside x hx).trans h.short
    obtain ⟨hdiv, -, hne⟩ := key_div hm hlt
    have hrank : m.1 < NONE.toNat := by
      obtain ⟨r, hr, rfl⟩ := Option.map_eq_some_iff.mp hm
      have hlt := r.1.toNat_lt
      have hnone : NONE.toNat = 2 ^ 32 - 1 := rfl
      omega
    have hle := Nat.div_le_div_right (c := 2 ^ 32) hroot
    omega

theorem Work.Holds.loop {w : Work} {row : List (ℕ × UInt32)} (h : w.Holds merge n half row) (hpos : 0 < half) {fuel : ℕ}
    (hfuel : row.length < fuel) :
    ∃ w' row', w.loop merge n fuel = some w' ∧ w'.Holds merge n half row' ∧
      row'.map Prod.snd = Bpe.bpe (usable merge) (row.map Prod.snd) := by
  induction fuel generalizing w row with
  | zero => exact absurd hfuel (Nat.not_lt_zero _)
  | succ fuel ih =>
    have hlen := h.tree.length
    obtain ⟨top, htop⟩ : ∃ top, w.tree[1]? = some top := ⟨_, List.getElem?_eq_getElem (by omega)⟩
    by_cases hidle : top / 2 ^ 32 = NONE.toNat
    · refine ⟨w, row, ?_, h, (Bpe.bpe_of_none (h.lowest_of_idle htop hidle)).symm⟩
      simp only [Work.loop, htop, bind, Option.bind, if_pos hidle]
    · obtain ⟨pre, p, q, rest, m, rfl, hm, hat, hstep⟩ := h.top htop hidle
      obtain ⟨w', hw, h'⟩ := h.mergeAt hm
      have hshort : (pre ++ (p.1, m.2) :: rest).length < fuel := by
        simp only [List.length_append, List.length_cons] at hfuel ⊢
        omega
      obtain ⟨w'', row', hloop, h'', hrow⟩ := ih h' hshort
      refine ⟨w'', row', ?_, h'', ?_⟩
      · simp only [Work.loop, htop, bind, Option.bind, if_neg hidle, hat, hw]
        exact hloop
      · have hlen : (pre.map Prod.snd ++ m.2 :: rest.map Prod.snd).length + 1 =
            ((pre ++ p :: q :: rest).map Prod.snd).length := by
          simp only [List.length_append, List.length_cons, List.length_map]
          omega
        rw [hrow, Bpe.bpe_of_step hstep hlen, List.map_append, List.map_cons]

theorem filter_marked {xs : List UInt32} {row : List (ℕ × UInt32)} {k : ℕ} (hsorted : row.Pairwise fun p q => p.1 < q.1)
    (hge : ∀ p ∈ row, k ≤ p.1) (hids : ∀ p ∈ row, xs[p.1 - k]? = some p.2)
    (hdead : ∀ i < xs.length, k + i ∉ row.map Prod.fst → xs[i]? = some NONE) :
    (xs.filter fun id => id ≠ NONE) = (row.map Prod.snd).filter fun id => id ≠ NONE := by
  induction xs generalizing row k with
  | nil =>
    cases row with
    | nil => rfl
    | cons p row => exact absurd (hids p List.mem_cons_self).symm (Option.some_ne_none p.2)
  | cons x xs ih =>
    have hskip : k ∉ row.map Prod.fst → ((x :: xs).filter fun id => id ≠ NONE) = xs.filter fun id => id ≠ NONE := by
      intro hk
      have hx := hdead 0 (Nat.succ_pos _) hk
      obtain rfl : x = NONE := Option.some.inj hx
      exact List.filter_cons_of_neg (by simp)
    have htail : ∀ p ∈ row, k < p.1 → xs[p.1 - (k + 1)]? = some p.2 := by
      intro p hp hlt
      have hp := hids p hp
      rwa [show p.1 - k = p.1 - (k + 1) + 1 by omega, List.getElem?_cons_succ] at hp
    have hdead' : ∀ i < xs.length, k + 1 + i ∉ row.map Prod.fst → xs[i]? = some NONE := by
      intro i hi hrow
      rw [← List.getElem?_cons_succ (a := x)]
      exact hdead (i + 1) (Nat.succ_lt_succ hi) (by rwa [show k + (i + 1) = k + 1 + i by omega])
    cases row with
    | nil =>
      rw [hskip List.not_mem_nil]
      exact ih .nil (fun p hp => absurd hp List.not_mem_nil) (fun p hp => absurd hp List.not_mem_nil) hdead'
    | cons p row =>
      obtain ⟨hlt, hrow⟩ := List.pairwise_cons.mp hsorted
      rcases (hge p List.mem_cons_self).eq_or_lt with hk | hk
      · have hx := hids p List.mem_cons_self
        rw [← hk, Nat.sub_self] at hx
        obtain rfl : x = p.2 := Option.some.inj hx
        have hdead'' : ∀ i < xs.length, k + 1 + i ∉ row.map Prod.fst → xs[i]? = some NONE := by
          intro i hi hnot
          refine hdead' i hi ?_
          rw [List.map_cons, List.mem_cons, not_or]
          exact ⟨by omega, hnot⟩
        have hrest := ih hrow (fun q hq => hk ▸ hlt q hq)
          (fun q hq => htail q (List.mem_cons_of_mem p hq) (hk ▸ hlt q hq)) hdead''
        rw [List.map_cons, List.filter_cons, List.filter_cons, hrest]
      · have hall : ∀ q ∈ p :: row, k < q.1 := by
          intro q hq
          rcases List.mem_cons.mp hq with rfl | hq
          · exact hk
          · exact hk.trans (hlt q hq)
        have hnot : k ∉ (p :: row).map Prod.fst := by
          intro hmem
          obtain ⟨q, hq, hqk⟩ := List.mem_map.mp hmem
          exact absurd (hall q hq) (by omega)
        rw [hskip hnot]
        exact ih hsorted hall (fun q hq => htail q hq (hall q hq)) hdead'

theorem Work.Holds.filter_ids (h : w.Holds merge n half row) :
    (w.ids.filter fun id => id ≠ NONE) = (row.map Prod.snd).filter fun id => id ≠ NONE := by
  refine filter_marked (k := 0) h.sorted (fun _ _ => Nat.zero_le _) h.ids ?_
  intro i hi hrow
  rw [Nat.zero_add] at hrow
  exact h.dead i (h.ids_length ▸ hi) hrow

/-! ## The start -/

/-- Symbols with their positions. -/
def numbered (ids : List UInt32) : List (ℕ × UInt32) := (List.range ids.length).zip ids

theorem numbered_fst (ids : List UInt32) : (numbered ids).map Prod.fst = List.range ids.length :=
  List.map_fst_zip (by simp)

theorem numbered_snd (ids : List UInt32) : (numbered ids).map Prod.snd = ids := List.map_snd_zip (by simp)

theorem numbered_at {ids : List UInt32} {i : ℕ} {p : ℕ × UInt32} (h : (numbered ids)[i]? = some p) :
    p.1 = i ∧ i < ids.length ∧ ids[i]? = some p.2 := by
  rw [numbered, List.getElem?_zip_eq_some] at h
  obtain ⟨hfst, hsnd⟩ := h
  obtain ⟨hlt, hfst⟩ := List.getElem?_eq_some_iff.mp hfst
  rw [List.getElem_range] at hfst
  exact ⟨hfst.symm, by simpa using hlt, hsnd⟩

theorem numbered_mem {ids : List UInt32} {p : ℕ × UInt32} (hp : p ∈ numbered ids) :
    p.1 < ids.length ∧ ids[p.1]? = some p.2 := by
  obtain ⟨i, hi⟩ := List.mem_iff_getElem?.mp hp
  obtain ⟨rfl, hlt, hget⟩ := numbered_at hi
  exact ⟨hlt, hget⟩

theorem Work.firsts_length (ids : List UInt32) : (Work.firsts merge ids).length = ids.length - 1 := by
  simp [Work.firsts]

theorem Work.firsts_get {ids : List UInt32} {i : ℕ} {a b : UInt32} (ha : ids[i]? = some a) (hb : ids[i + 1]? = some b) :
    (Work.firsts merge ids)[i]? = some (Work.keyed i (merge a b)) := by
  have hzip : (ids.zip (ids.drop 1))[i]? = some (a, b) := by
    rw [List.getElem?_zip_eq_some, List.getElem?_drop, Nat.add_comm 1]
    exact ⟨ha, hb⟩
  rw [Work.firsts, List.getElem?_map, List.getElem?_zipIdx, hzip, Nat.zero_add]
  rfl

theorem Work.leaves_length {firsts : List (ℕ × UInt32)} (h : firsts.length ≤ half) :
    (Work.leaves half firsts).length = 2 * half := by
  simp only [Work.leaves, List.length_append, List.length_replicate, List.length_map]
  omega

theorem Work.leaves_get {firsts : List (ℕ × UInt32)} {i : ℕ} {m : ℕ × UInt32} (h : firsts[i]? = some m) :
    (Work.leaves half firsts)[half + i]? = some m.1 := by
  have hlt := (List.getElem?_eq_some_iff.mp h).1
  rw [Work.leaves, List.getElem?_append_right (by simp), List.length_replicate, Nat.add_sub_cancel_left,
    List.getElem?_append_left (by rwa [List.length_map]), List.getElem?_map, h]
  rfl

theorem Work.leaves_idle {firsts : List (ℕ × UInt32)} {i : ℕ} (hge : firsts.length ≤ i) (hlt : i < half) :
    Idle (Work.leaves half firsts)[half + i]? := by
  refine ⟨MAX_KEY, ?_, by decide⟩
  rw [Work.leaves, List.getElem?_append_right (by simp), List.length_replicate, Nat.add_sub_cancel_left,
    List.getElem?_append_right (by rwa [List.length_map]), List.length_map, List.getElem?_replicate, if_pos (by omega)]

/-- All symbols in a row. -/
theorem Work.begin_holds {ids : List UInt32} (hshort : ids.length < 2 ^ 32) :
    ∃ w, Work.begin merge ids = some w ∧ w.Holds merge ids.length (2 ^ Nat.clog 2 ids.length) (numbered ids) := by
  have hroom : ids.length ≤ 2 ^ Nat.clog 2 ids.length := Nat.le_pow_clog (by decide) ids.length
  have hpos : 0 < 2 ^ Nat.clog 2 ids.length := Nat.two_pow_pos _
  have hfirsts := @Work.firsts_length merge ids
  obtain ⟨tree, hbuild, htree, hsame⟩ := Tournament.build_over
    (Work.leaves_length (show (Work.firsts merge ids).length ≤ 2 ^ Nat.clog 2 ids.length by omega))
    (show 2 ^ Nat.clog 2 ids.length - 1 < 2 ^ Nat.clog 2 ids.length ∨ 2 ^ Nat.clog 2 ids.length - 1 = 0 by omega)
    (fun q hq hlt => by omega)
  refine ⟨_, by rw [Work.begin, hbuild]; rfl, ?_⟩
  rw [Nat.mod_eq_of_lt hshort]
  refine {
    short := hshort
    room := hroom
    ids_length := rfl
    next_length := by simp
    prev_length := by simp
    merged_length := ?_
    tree := htree
    inside := fun x hx => (numbered_mem hx).1
    ids := fun x hx => (numbered_mem hx).2
    linked := ?_
    first := ?_
    last := ?_
    dead := ?_
    off := ?_ }
  · rw [List.length_append, List.length_map, hfirsts, List.length_singleton]
    omega
  · rw [List.isChain_iff_getElem]
    intro i hi
    have hlen : (numbered ids).length = ids.length := by simp [numbered]
    obtain ⟨hp, -, ha⟩ := numbered_at (List.getElem?_eq_getElem (show i < (numbered ids).length by omega))
    obtain ⟨hq, hlt, hb⟩ := numbered_at (List.getElem?_eq_getElem hi)
    have hfirst := @Work.firsts_get merge ids i _ _ ha hb
    refine ⟨by omega, ?_, ?_, ?_⟩
    · rw [hp, hq, List.getElem?_range' (by omega)]
      congr 1
      omega
    · rw [hp, hq, List.getElem?_map, List.getElem?_range hlt, Option.map_some]
      exact congrArg some (by omega)
    · rw [hp]
      refine Work.leaf_of_keyed (by omega) ⟨?_, ?_⟩
      · rw [hsame _ (by omega)]
        exact Work.leaves_get hfirst
      · rw [List.getElem?_append_left (by rw [List.length_map]; omega), List.getElem?_map, hfirst]
        rfl
  · intro p hp
    rw [List.head?_eq_getElem?] at hp
    obtain ⟨hp, hlt, -⟩ := numbered_at hp
    rw [hp, List.getElem?_map, List.getElem?_range hlt, Option.map_some]
    exact congrArg some (by omega)
  · intro p hp
    have hlen : (numbered ids).length = ids.length := by simp [numbered]
    rw [List.getLast?_eq_getElem?, hlen] at hp
    obtain ⟨hp, hlt, -⟩ := numbered_at hp
    refine ⟨?_, ?_⟩
    · rw [hp, List.getElem?_range' (by omega)]
      congr 1
      omega
    · rw [hp, hsame _ (by omega)]
      exact Work.leaves_idle (by omega) (by omega)
  · intro i hi hrow
    rw [numbered_fst, List.mem_range] at hrow
    exact absurd hi hrow
  · intro i hi hrow
    rw [numbered_fst, List.mem_range, Nat.not_lt] at hrow
    rw [hsame _ (by omega)]
    exact Work.leaves_idle (by omega) hi

end

/-- The merges of the tree and its links are those of byte-pair encoding, one after the other. -/
theorem mergeAll_eq (merge : UInt32 → UInt32 → Option (UInt32 × UInt32)) {ids : List UInt32} (h : ids.length < 2 ^ 32) :
    mergeAll merge ids = some ((Bpe.bpe (usable merge) ids).filter fun id => id ≠ NONE) := by
  obtain ⟨w, hbegin, hw⟩ := @Work.begin_holds merge ids h
  have hlen : (numbered ids).length < ids.length + 1 := by simp [numbered]
  obtain ⟨w', row, hloop, hw', hrow⟩ := hw.loop (Nat.two_pow_pos _) hlen
  rw [numbered_snd] at hrow
  simp only [mergeAll, hbegin, Nat.mod_eq_of_lt h, bind, Option.bind, hloop, hw'.filter_ids, hrow]

/-- Two merges, the lower of which comes second in the row. -/
theorem mergeAll_pairs : mergeAll (fun a b => if b = 2 then some (a, a + 2) else none) [3, 2, 1, 2] = some [5, 3] := by
  rw [mergeAll_eq (fun a b => if b = 2 then some (a, a + 2) else none) (by decide)]
  decide +kernel

end Chatlink.Token
