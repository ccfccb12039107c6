import Chatlink.Lib.Files
import Chatlink.Lib.Lists
import Chatlink.Tachyon.Template

/-!
# Batches of an encoder

Sequences are taken in batches of at most as many tokens as the buffers hold, and the words of a batch are written to
the parts of the pinned input: IDs, positions and kinds, a word for each token, and tiles, three for each. Tiles are
cut from each sequence, so there may be more of them than 64-token pieces of the batch, but never more than one for
each sequence besides. Every word is written behind those of its part before it, so what a part holds is what was
written to it.
-/
namespace Chatlink.Encoder

open Files
open Tachyon (Error)

/-- `GEMM_F16_TILE`. -/
def TILE : ℕ := 64

def divCeil (a b : ℕ) : ℕ := (a + b - 1) / b

/-- The tokens that a batch holds, in whole tiles. -/
def capacity (tokens : ℕ) : Except Error ℕ :=
  let cap := divCeil tokens TILE * TILE
  if cap = 0 ∨ 65535 < cap then .error (.unsupported s!"{tokens} tokens at once: from 1 to 65535") else .ok cap

/-! ## Batches -/

/-- The batches `out`, then that of `cur`, which has `used` tokens, and those of the sequences left. -/
def batchesFrom (cap : ℕ) (out : List (List (List UInt32))) (cur : List (List UInt32)) (used : ℕ) :
    List (List UInt32) → List (List (List UInt32))
  | [] => out ++ [cur]
  | s :: rest =>
    if cap < used + s.length then batchesFrom cap (out ++ [cur]) [s] s.length rest
    else batchesFrom cap out (cur ++ [s]) (used + s.length) rest

def batches (cap : ℕ) (seqs : List (List UInt32)) : Except Error (List (List (List UInt32))) :=
  match seqs.find? fun s => s.isEmpty || cap < s.length with
  | some s => .error (.tooLong s.length cap)
  | none => .ok (batchesFrom cap [] [] 0 seqs)

/-! ## The words of a batch -/

/-- Words of the parts of the input: IDs, positions, kinds, tiles, picked rows. -/
def sizes (cap : ℕ) : List ℕ := [cap, cap, cap, 3 * 2 * cap, cap]

def size (cap part : ℕ) : ℕ := (sizes cap).getD part 0

/-- Where a part begins. -/
def at_ (cap part : ℕ) : ℕ := ((sizes cap).take part).sum

/-- `put(part, i, v)`. -/
structure Write where
  part : ℕ
  i : ℕ
  v : UInt32
  deriving DecidableEq, Repr

/-- A word is written; behind the end of the buffer there is none to write. -/
def putWord (cap : ℕ) (buf : List UInt32) (w : Write) : Option (List UInt32) :=
  if at_ cap w.part + w.i < buf.length then some (put buf (at_ cap w.part + w.i) [w.v]) else none

/-- One word in each of the first three parts. -/
def tokenWrites (i : ℕ) (id position kind : UInt32) : List Write := [⟨0, i, id⟩, ⟨1, i, position⟩, ⟨2, i, kind⟩]

/-- The three words of a tile. -/
def tileWrites (i : ℕ) (t len q : ℕ) : List Write :=
  [⟨3, 3 * i, .ofNat t⟩, ⟨3, 3 * i + 1, .ofNat len⟩, ⟨3, 3 * i + 2, .ofNat q⟩]

/-- `(0..len).step_by(64)`. -/
def tileStarts (len : ℕ) : List ℕ := (List.range (divCeil len 64)).map (64 * ·)

/-- The writes of a sequence whose first token is token `t` and whose first tile is tile `tiles`. -/
def seqWrites (kind : UInt32) (t tiles : ℕ) (seq : List UInt32) : List Write :=
  (seq.zipIdx.flatMap fun (id, p) => tokenWrites (t + p) id (.ofNat p) kind) ++
    (tileStarts seq.length).zipIdx.flatMap fun (q, j) => tileWrites (tiles + j) t seq.length q

/-- `kinds.map_or(0, |k| k[s])`. -/
def kindOf (kinds : Option (List UInt32)) (s : ℕ) : UInt32 := kinds.elim 0 (·.getD s 0)

/-- The writes of sequence `s` and the ones behind it, then the numbers of tokens and of tiles. -/
def batchWrites (kinds : Option (List UInt32)) : ℕ → ℕ → ℕ → List (List UInt32) → List Write × ℕ × ℕ
  | _, t, tiles, [] => ([], t, tiles)
  | s, t, tiles, seq :: rest =>
    let r := batchWrites kinds (s + 1) (t + seq.length) (tiles + (tileStarts seq.length).length) rest
    (seqWrites (kindOf kinds s) t tiles seq ++ r.1, r.2)

/-- All writes of `fill`, padded to `n` tokens and `slots` tiles. -/
def fillWrites (seqs : List (List UInt32)) (kinds : Option (List UInt32)) (n slots : ℕ) : List Write :=
  let (ws, t, tiles) := batchWrites kinds 0 0 0 seqs
  ws ++ ((List.range' t (n - t)).flatMap fun i => tokenWrites i 0 0 0) ++
    (List.range' (3 * tiles) (3 * slots - 3 * tiles)).map fun i => ⟨3, i, 0⟩

def fill (cap : ℕ) (buf : List UInt32) (seqs : List (List UInt32)) (kinds : Option (List UInt32)) (n slots : ℕ) :
    Option (List UInt32) :=
  (fillWrites seqs kinds n slots).foldlM (putWord cap) buf

def tokensOf (seqs : List (List UInt32)) : ℕ := (seqs.map List.length).sum

/-- What `encode` pads a batch to: whole tiles of tokens, and tile slots. -/
def shape (seqs : List (List UInt32)) : ℕ × ℕ :=
  (divCeil (tokensOf seqs) 64 * 64, divCeil (tokensOf seqs) 64 + seqs.length)

/-! ## What the parts are to hold -/

/-- The token that is the first of sequence `s`. -/
def firstToken (seqs : List (List UInt32)) (s : ℕ) : ℕ := tokensOf (seqs.take s)

/-- The tiles of each sequence: its first token, its length and the tile's place in it. -/
def tilesOf (seqs : List (List UInt32)) : List (ℕ × ℕ × ℕ) :=
  seqs.zipIdx.flatMap fun (seq, s) => (tileStarts seq.length).map fun q => (firstToken seqs s, seq.length, q)

def tileWords (tiles : List (ℕ × ℕ × ℕ)) : List UInt32 :=
  tiles.flatMap fun (t, len, q) => [.ofNat t, .ofNat len, .ofNat q]

def positionWords (seqs : List (List UInt32)) : List UInt32 := seqs.flatMap fun seq => (List.range seq.length).map .ofNat

def kindWords (kinds : Option (List UInt32)) (seqs : List (List UInt32)) : List UInt32 :=
  seqs.zipIdx.flatMap fun (seq, s) => List.replicate seq.length (kindOf kinds s)

/-- Words at the start of a part, and zeros up to `n`. -/
def Padded (cap part : ℕ) (buf : List UInt32) (n : ℕ) (words : List UInt32) : Prop :=
  words.length ≤ n ∧ slice buf (at_ cap part) n = words ++ List.replicate (n - words.length) 0

/-- The input as `fill` is to leave it. -/
structure Filled (cap : ℕ) (seqs : List (List UInt32)) (kinds : Option (List UInt32)) (buf : List UInt32) : Prop where
  ids : Padded cap 0 buf (shape seqs).1 seqs.flatten
  positions : Padded cap 1 buf (shape seqs).1 (positionWords seqs)
  kinds : Padded cap 2 buf (shape seqs).1 (kindWords kinds seqs)
  tiles : Padded cap 3 buf (3 * (shape seqs).2) (tileWords (tilesOf seqs))

/-- Every write is in its part, and together they leave the input filled. -/
def FillsRight (cap : ℕ) (seqs : List (List UInt32)) : Prop :=
  ∀ kinds buf, (∀ k, kinds = some k → k.length = seqs.length) → buf.length = (sizes cap).sum →
    (∀ w ∈ fillWrites seqs kinds (shape seqs).1 (shape seqs).2, w.i < size cap w.part) ∧
    ∃ buf', fill cap buf seqs kinds (shape seqs).1 (shape seqs).2 = some buf' ∧ Filled cap seqs kinds buf'

/-- The batches are the list, in order and none of them empty, and fit the buffers. -/
structure Covered (cap : ℕ) (seqs : List (List UInt32)) (bs : List (List (List UInt32))) : Prop where
  concat : bs.flatten = seqs
  nonempty : ∀ b ∈ bs, b ≠ []
  small : ∀ b ∈ bs, tokensOf b ≤ cap
  filled : ∀ b ∈ bs, FillsRight cap b

/-! ## Writes in order -/

/-- The words that writes put in a part. -/
def wordsOf (part : ℕ) (ws : List Write) : List UInt32 := (ws.filter fun w => w.part = part).map Write.v

/-- Every write goes right behind the words of its part, of which there are `c` before them all. -/
def InOrder : (ℕ → ℕ) → List Write → Prop
  | _, [] => True
  | c, w :: ws => w.i = c w.part ∧ InOrder (Function.update c w.part (c w.part + 1)) ws

theorem wordsOf_append (part : ℕ) (ws ws' : List Write) : wordsOf part (ws ++ ws') = wordsOf part ws ++ wordsOf part ws' := by
  rw [wordsOf, List.filter_append, List.map_append]
  rfl

theorem wordsOf_cons (part : ℕ) (w : Write) (ws : List Write) :
    wordsOf part (w :: ws) = (if w.part = part then [w.v] else []) ++ wordsOf part ws := by
  by_cases h : w.part = part
  · simp [wordsOf, h]
  · simp [wordsOf, h]

theorem inOrder_append {c c' : ℕ → ℕ} {ws ws' : List Write} (h : InOrder c ws)
    (hc : ∀ k, c' k = c k + (wordsOf k ws).length) (h' : InOrder c' ws') : InOrder c (ws ++ ws') := by
  induction ws generalizing c with
  | nil =>
    obtain rfl : c' = c := funext fun k => by simpa [wordsOf] using hc k
    exact h'
  | cons w ws ih =>
    refine ⟨h.1, ih h.2 fun k => ?_⟩
    rw [hc k, wordsOf_cons, List.length_append]
    by_cases hk : w.part = k
    · subst hk
      rw [if_pos rfl, Function.update_self, List.length_singleton, Nat.add_assoc]
    · rw [if_neg hk, Function.update_of_ne (Ne.symm hk), List.length_nil, Nat.zero_add]

/-- The parts of the input hold `words` so far. -/
structure Holding (cap : ℕ) (words : ℕ → List UInt32) (buf : List UInt32) : Prop where
  length : buf.length = (sizes cap).sum
  holds : ∀ k < 5, Holds buf (at_ cap k) (words k)

theorem at_add_size (cap : ℕ) {k : ℕ} (hk : k < 5) : at_ cap k + size cap k ≤ (sizes cap).sum ∧
    ∀ j < k, at_ cap j + size cap j ≤ at_ cap k := by
  interval_cases k
  all_goals
    refine ⟨?_, fun j hj => ?_⟩
    · simp [at_, size, sizes] <;> omega
    · interval_cases j <;> simp [at_, size, sizes] <;> omega

/-- A word behind those of its part, in a part with room for it. -/
theorem Holding.putWord {cap : ℕ} {words : ℕ → List UInt32} {buf : List UInt32} {w : Write} (h : Holding cap words buf)
    (hpart : w.part < 5) (hfits : ∀ k < 5, (words k).length ≤ size cap k) (hi : w.i = (words w.part).length)
    (hroom : w.i < size cap w.part) : ∃ buf', putWord cap buf w = some buf' ∧
      Holding cap (Function.update words w.part (words w.part ++ [w.v])) buf' := by
  obtain ⟨hend, -⟩ := at_add_size cap hpart
  have hin : at_ cap w.part + w.i < buf.length := by rw [h.length]; omega
  refine ⟨_, if_pos hin, ?_, fun k hk => ?_⟩
  · rw [length_put (List.cons_ne_nil _ _), List.length_singleton, h.length]
    rw [h.length] at hin
    omega
  · by_cases hkw : k = w.part
    · subst hkw
      rw [Function.update_self]
      refine Holds.append ((h.holds _ hk).put (.inl (by rw [hi]))) ?_
      rw [hi]
      exact holds_put
    · rw [Function.update_of_ne hkw]
      refine (h.holds k hk).put ?_
      have hlen := hfits k hk
      rcases Nat.lt_or_gt_of_ne hkw with hlt | hlt
      · have hbefore := (at_add_size cap hpart).2 k hlt
        left
        omega
      · have hafter := (at_add_size cap hk).2 w.part hlt
        right
        rw [List.length_singleton]
        omega

/-- Writes in order stay in their parts and leave their words there. -/
theorem Holding.foldlM {cap : ℕ} {words : ℕ → List UInt32} {buf : List UInt32} {ws : List Write}
    (h : Holding cap words buf) (hpart : ∀ w ∈ ws, w.part < 5) (horder : InOrder (fun k => (words k).length) ws)
    (hroom : ∀ k < 5, (words k).length + (wordsOf k ws).length ≤ size cap k) :
    (∀ w ∈ ws, w.i < size cap w.part) ∧ ∃ buf', ws.foldlM (Encoder.putWord cap) buf = some buf' ∧
      Holding cap (fun k => words k ++ wordsOf k ws) buf' := by
  induction ws generalizing words buf with
  | nil => exact ⟨nofun, buf, rfl, by simpa [wordsOf] using h⟩
  | cons w ws ih =>
    have hw : w.part < 5 := hpart w (List.mem_cons_self ..)
    have hi : w.i < size cap w.part := by
      have hroom' := hroom w.part hw
      rw [wordsOf_cons, if_pos rfl, List.length_append, List.length_singleton] at hroom'
      have hnext : w.i = (words w.part).length := horder.1
      omega
    obtain ⟨buf', hput, h'⟩ := h.putWord hw (fun k hk => (Nat.le_add_right _ _).trans (hroom k hk)) horder.1 hi
    have hcount : (fun k => (Function.update words w.part (words w.part ++ [w.v]) k).length) =
        Function.update (fun k => (words k).length) w.part ((words w.part).length + 1) := by
      funext k
      by_cases hk : k = w.part
      · subst hk; simp
      · simp [hk]
    have hwords : (fun k => Function.update words w.part (words w.part ++ [w.v]) k ++ wordsOf k ws) =
        fun k => words k ++ wordsOf k (w :: ws) := by
      funext k
      rw [wordsOf_cons]
      by_cases hk : w.part = k
      · subst hk; simp
      · simp [hk, Function.update_of_ne (Ne.symm hk)]
    have hroom' : ∀ k < 5, (Function.update words w.part (words w.part ++ [w.v]) k).length + (wordsOf k ws).length ≤
        size cap k := by
      intro k hk
      have hsame := congrArg List.length (congrFun hwords k)
      rw [List.length_append, List.length_append] at hsame
      exact hsame.trans_le (hroom k hk)
    obtain ⟨hins, buf'', hfold, h''⟩ := ih h' (fun w' hw' => hpart w' (List.mem_cons_of_mem _ hw'))
      (by rw [hcount]; exact horder.2) hroom'
    refine ⟨fun w' hw' => ?_, buf'', ?_, hwords ▸ h''⟩
    · rcases List.mem_cons.mp hw' with rfl | hw'
      · exact hi
      · exact hins w' hw'
    · rw [List.foldlM_cons, hput]
      exact hfold

/-! ## The writes of a batch -/

/-- The words in the parts after `t` tokens and `tiles` tiles. -/
def counts (t tiles : ℕ) (k : ℕ) : ℕ := if k < 3 then t else if k = 3 then 3 * tiles else 0

theorem inOrder_tokenWrites (t tiles : ℕ) (id position kind : UInt32) :
    InOrder (counts t tiles) (tokenWrites t id position kind) := by
  simp [tokenWrites, InOrder, counts]

theorem inOrder_tileWrites (t tiles a len q : ℕ) : InOrder (counts t tiles) (tileWrites tiles a len q) := by
  simp [tileWrites, InOrder, counts]

theorem wordsOf_tokenWrites (k i : ℕ) (id position kind : UInt32) :
    wordsOf k (tokenWrites i id position kind) = [id, position, kind][k]?.toList := by
  match k with
  | 0 => rfl
  | 1 => rfl
  | 2 => rfl
  | k + 3 => rfl

theorem wordsOf_tileWrites (k i t len q : ℕ) :
    wordsOf k (tileWrites i t len q) = if k = 3 then [.ofNat t, .ofNat len, .ofNat q] else [] := by
  by_cases hk : k = 3
  · subst hk; rfl
  · simp [wordsOf, tileWrites, hk, Ne.symm hk]

theorem counts_token (t tiles i : ℕ) (id position kind : UInt32) (k : ℕ) :
    counts (t + 1) tiles k = counts t tiles k + (wordsOf k (tokenWrites i id position kind)).length := by
  rw [wordsOf_tokenWrites]
  match k with
  | 0 => rfl
  | 1 => rfl
  | 2 => rfl
  | k + 3 => simp [counts]

theorem counts_tile (t tiles i a len q : ℕ) (k : ℕ) :
    counts t (tiles + 1) k = counts t tiles k + (wordsOf k (tileWrites i a len q)).length := by
  rw [wordsOf_tileWrites]
  by_cases hk : k = 3
  · subst hk; simp [counts]; omega
  · simp [counts, hk]

section FlatMap

variable {α : Type} {xs : List α} {f : α → List Write}

theorem wordsOf_flatMap (k : ℕ) (xs : List α) (f : α → List Write) :
    wordsOf k (xs.flatMap f) = xs.flatMap fun x => wordsOf k (f x) := by
  induction xs with
  | nil => rfl
  | cons x xs ih => rw [List.flatMap_cons, wordsOf_append, ih, List.flatMap_cons]

theorem inOrder_flatMap {c : ℕ → ℕ → ℕ} (h : ∀ j x, xs[j]? = some x →
    InOrder (c j) (f x) ∧ ∀ k, c (j + 1) k = c j k + (wordsOf k (f x)).length) : InOrder (c 0) (xs.flatMap f) := by
  induction xs generalizing c with
  | nil => trivial
  | cons x xs ih =>
    obtain ⟨hx, hnext⟩ := h 0 x rfl
    exact inOrder_append hx hnext (ih fun j y hy => h (j + 1) y hy)

end FlatMap

theorem wordsOf_tokens (k : ℕ) (kind : UInt32) (t p : ℕ) (seq : List UInt32) :
    wordsOf k ((seq.zipIdx p).flatMap fun (id, p) => tokenWrites (t + p) id (.ofNat p) kind) =
      [seq, (List.range' p seq.length).map .ofNat, List.replicate seq.length kind].getD k [] := by
  rw [wordsOf_flatMap]
  induction seq generalizing p with
  | nil =>
    match k with
    | 0 => rfl
    | 1 => rfl
    | 2 => rfl
    | k + 3 => rfl
  | cons id seq ih =>
    rw [List.zipIdx_cons, List.flatMap_cons, wordsOf_tokenWrites, ih]
    match k with
    | 0 => rfl
    | 1 => rfl
    | 2 => rfl
    | k + 3 => rfl

theorem wordsOf_tiles (k t len tiles p : ℕ) (qs : List ℕ) :
    wordsOf k ((qs.zipIdx p).flatMap fun (q, j) => tileWrites (tiles + j) t len q) =
      if k = 3 then tileWords (qs.map fun q => (t, len, q)) else [] := by
  rw [wordsOf_flatMap]
  induction qs generalizing p with
  | nil => simp [tileWords]
  | cons q qs ih =>
    rw [List.zipIdx_cons, List.flatMap_cons, wordsOf_tileWrites, ih]
    by_cases hk : k = 3
    · simp [hk, tileWords]
    · simp [hk]

/-- What a sequence leaves in each part. -/
theorem wordsOf_seqWrites (k : ℕ) (kind : UInt32) (t tiles : ℕ) (seq : List UInt32) :
    wordsOf k (seqWrites kind t tiles seq) =
      [seq, (List.range seq.length).map .ofNat, List.replicate seq.length kind,
        tileWords ((tileStarts seq.length).map fun q => (t, seq.length, q))].getD k [] := by
  rw [seqWrites, wordsOf_append, wordsOf_tokens, wordsOf_tiles, List.range_eq_range']
  match k with
  | 0 => simp
  | 1 => simp
  | 2 => simp
  | 3 => simp
  | k + 4 => simp

theorem inOrder_seqWrites (kind : UInt32) (t tiles : ℕ) (seq : List UInt32) :
    InOrder (counts t tiles) (seqWrites kind t tiles seq) := by
  have hnext : ∀ k, counts (t + seq.length) tiles k = counts t tiles k +
      (wordsOf k (seq.zipIdx.flatMap fun (id, p) => tokenWrites (t + p) id (.ofNat p) kind)).length := by
    intro k
    rw [wordsOf_tokens]
    match k with
    | 0 => rfl
    | 1 => simp [counts]
    | 2 => simp [counts]
    | k + 3 => simp [counts]
  refine inOrder_append ?_ hnext ?_
  · refine inOrder_flatMap (c := fun j => counts (t + j) tiles) fun j x hx => ?_
    rw [List.getElem?_zipIdx, Option.map_eq_some_iff] at hx
    obtain ⟨id, -, rfl⟩ := hx
    simp only [Nat.zero_add]
    exact ⟨inOrder_tokenWrites .., fun k => counts_token ..⟩
  · refine inOrder_flatMap (c := fun j => counts (t + seq.length) (tiles + j)) fun j x hx => ?_
    rw [List.getElem?_zipIdx, Option.map_eq_some_iff] at hx
    obtain ⟨q, -, rfl⟩ := hx
    simp only [Nat.zero_add]
    exact ⟨inOrder_tileWrites .., fun k => counts_tile ..⟩

/-- The tiles of a batch. -/
def tileCount (seqs : List (List UInt32)) : ℕ := (seqs.map fun seq => divCeil seq.length 64).sum

theorem length_tileStarts (len : ℕ) : (tileStarts len).length = divCeil len 64 := by
  rw [tileStarts, List.length_map, List.length_range]

theorem length_tileWords (ts : List (ℕ × ℕ × ℕ)) : (tileWords ts).length = 3 * ts.length := by
  induction ts with
  | nil => rfl
  | cons a ts ih =>
    rw [tileWords, List.flatMap_cons, List.length_append, ← tileWords, ih, List.length_cons]
    exact (Nat.add_comm _ _).trans (Nat.mul_succ 3 _).symm

theorem counts_seqWrites (kind : UInt32) (t tiles : ℕ) (seq : List UInt32) (k : ℕ) :
    counts (t + seq.length) (tiles + (tileStarts seq.length).length) k =
      counts t tiles k + (wordsOf k (seqWrites kind t tiles seq)).length := by
  rw [wordsOf_seqWrites]
  match k with
  | 0 => rfl
  | 1 => simp [counts]
  | 2 => simp [counts]
  | 3 => simp [counts, length_tileWords, Nat.mul_add]
  | k + 4 => rfl

theorem batchWrites_counts (kinds : Option (List UInt32)) (s t tiles : ℕ) (seqs : List (List UInt32)) :
    (batchWrites kinds s t tiles seqs).2 = (t + tokensOf seqs, tiles + tileCount seqs) := by
  induction seqs generalizing s t tiles with
  | nil => rfl
  | cons seq seqs ih =>
    rw [batchWrites, ih, length_tileStarts]
    simp [tokensOf, tileCount, Nat.add_assoc]

theorem batchWrites_length (kinds : Option (List UInt32)) (s t tiles : ℕ) (seqs : List (List UInt32)) (k : ℕ) :
    counts (t + tokensOf seqs) (tiles + tileCount seqs) k =
      counts t tiles k + (wordsOf k (batchWrites kinds s t tiles seqs).1).length := by
  induction seqs generalizing s t tiles with
  | nil => rfl
  | cons seq seqs ih =>
    have hcons : (batchWrites kinds s t tiles (seq :: seqs)).1 = seqWrites (kindOf kinds s) t tiles seq ++
      (batchWrites kinds (s + 1) (t + seq.length) (tiles + (tileStarts seq.length).length) seqs).1 := rfl
    have hrest := ih (s + 1) (t + seq.length) (tiles + (tileStarts seq.length).length)
    rw [counts_seqWrites (kindOf kinds s), length_tileStarts, Nat.add_assoc, Nat.add_assoc] at hrest
    rw [hcons, wordsOf_append, List.length_append, ← Nat.add_assoc, length_tileStarts]
    exact hrest

theorem inOrder_batchWrites (kinds : Option (List UInt32)) (s t tiles : ℕ) (seqs : List (List UInt32)) :
    InOrder (counts t tiles) (batchWrites kinds s t tiles seqs).1 := by
  induction seqs generalizing s t tiles with
  | nil => trivial
  | cons seq seqs ih => exact inOrder_append (inOrder_seqWrites ..) (fun k => counts_seqWrites ..) (ih ..)

/-- The tiles of sequences whose first token is token `t`. -/
def tilesFrom : ℕ → List (List UInt32) → List (ℕ × ℕ × ℕ)
  | _, [] => []
  | t, seq :: seqs => (tileStarts seq.length).map (fun q => (t, seq.length, q)) ++ tilesFrom (t + seq.length) seqs

theorem tilesFrom_eq (t : ℕ) (seqs : List (List UInt32)) : tilesFrom t seqs =
    seqs.zipIdx.flatMap fun (seq, s) => (tileStarts seq.length).map fun q => (t + firstToken seqs s, seq.length, q) := by
  induction seqs generalizing t with
  | nil => rfl
  | cons seq seqs ih =>
    rw [tilesFrom, ih, List.zipIdx_cons, List.flatMap_cons, List.zipIdx_succ, List.flatMap_map]
    simp [firstToken, tokensOf, Nat.add_assoc]

theorem tilesFrom_zero (seqs : List (List UInt32)) : tilesFrom 0 seqs = tilesOf seqs := by
  rw [tilesFrom_eq]
  simp [tilesOf]

/-- What a batch leaves in each part. -/
theorem wordsOf_batchWrites (k : ℕ) (kinds : Option (List UInt32)) (s t tiles : ℕ) (seqs : List (List UInt32)) :
    wordsOf k (batchWrites kinds s t tiles seqs).1 =
      [seqs.flatten, positionWords seqs,
        (seqs.zipIdx s).flatMap (fun (seq, s) => List.replicate seq.length (kindOf kinds s)),
        tileWords (tilesFrom t seqs)].getD k [] := by
  induction seqs generalizing s t tiles with
  | nil =>
    match k with
    | 0 => rfl
    | 1 => rfl
    | 2 => rfl
    | 3 => rfl
    | k + 4 => rfl
  | cons seq seqs ih =>
    have hcons : (batchWrites kinds s t tiles (seq :: seqs)).1 = seqWrites (kindOf kinds s) t tiles seq ++
      (batchWrites kinds (s + 1) (t + seq.length) (tiles + (tileStarts seq.length).length) seqs).1 := rfl
    rw [hcons, wordsOf_append, wordsOf_seqWrites, ih]
    match k with
    | 0 => rfl
    | 1 => rfl
    | 2 => rfl
    | 3 => simp [tilesFrom, tileWords]
    | k + 4 => rfl

/-! ## Filling -/

theorem divCeil_le (a : ℕ) : divCeil a 64 * 64 < a + 64 ∧ a ≤ divCeil a 64 * 64 := by
  rw [divCeil]
  omega

theorem length_le_tokensOf {seqs : List (List UInt32)} (h : ∀ s ∈ seqs, s ≠ []) : seqs.length ≤ tokensOf seqs := by
  induction seqs with
  | nil => exact Nat.le_refl 0
  | cons s seqs ih =>
    have hs : 0 < s.length := List.length_pos_iff.mpr (h s (List.mem_cons_self ..))
    have hrest := ih fun s' hs' => h s' (List.mem_cons_of_mem _ hs')
    rw [tokensOf] at hrest ⊢
    rw [List.map_cons, List.sum_cons, List.length_cons]
    omega

/-- Of the tiles of sequences, all but one for each are whole. -/
theorem tileCount_le (seqs : List (List UInt32)) : tileCount seqs ≤ divCeil (tokensOf seqs) 64 + seqs.length := by
  have hsum : tileCount seqs * 64 ≤ tokensOf seqs + seqs.length * 63 := by
    induction seqs with
    | nil => exact Nat.le_refl 0
    | cons s seqs ih =>
      have hs := (divCeil_le s.length).1
      rw [tileCount, tokensOf] at ih ⊢
      simp only [List.map_cons, List.sum_cons, List.length_cons]
      omega
  have htokens := (divCeil_le (tokensOf seqs)).2
  omega

theorem length_tilesOf (seqs : List (List UInt32)) : (tilesOf seqs).length = tileCount seqs := by
  have hfrom : ∀ t, (tilesFrom t seqs).length = tileCount seqs := by
    induction seqs with
    | nil => exact fun _ => rfl
    | cons seq seqs ih =>
      intro t
      rw [tilesFrom, List.length_append, List.length_map, length_tileStarts, ih]
      rfl
  rw [← tilesFrom_zero, hfrom]

theorem fillWrites_eq (seqs : List (List UInt32)) (kinds : Option (List UInt32)) (n slots : ℕ) :
    fillWrites seqs kinds n slots = (batchWrites kinds 0 0 0 seqs).1 ++
      ((List.range' (tokensOf seqs) (n - tokensOf seqs)).flatMap fun i => tokenWrites i 0 0 0) ++
      (List.range' (3 * tileCount seqs) (3 * slots - 3 * tileCount seqs)).map fun i => ⟨3, i, 0⟩ := by
  have hcounts := batchWrites_counts kinds 0 0 0 seqs
  rw [Nat.zero_add, Nat.zero_add] at hcounts
  rw [fillWrites]
  simp only [hcounts]

theorem wordsOf_tokenZeros (k t n : ℕ) :
    wordsOf k ((List.range' t n).flatMap fun i => tokenWrites i 0 0 0) = if k < 3 then List.replicate n 0 else [] := by
  rw [wordsOf_flatMap]
  induction n generalizing t with
  | zero => simp
  | succ n ih =>
    rw [List.range'_succ, List.flatMap_cons, wordsOf_tokenWrites, ih]
    match k with
    | 0 => rfl
    | 1 => rfl
    | 2 => rfl
    | k + 3 => rfl

theorem wordsOf_tileZeros (k t n : ℕ) :
    wordsOf k ((List.range' t n).map fun i => ⟨3, i, 0⟩) = if k = 3 then List.replicate n 0 else [] := by
  induction n generalizing t with
  | zero => simp [wordsOf]
  | succ n ih =>
    rw [List.range'_succ, List.map_cons, wordsOf_cons, ih]
    by_cases hk : k = 3
    · simp [hk, List.replicate_succ]
    · simp [hk, Ne.symm hk]

theorem inOrder_tokenZeros (t tiles n : ℕ) :
    InOrder (counts t tiles) ((List.range' t n).flatMap fun i => tokenWrites i 0 0 0) := by
  refine inOrder_flatMap (c := fun j => counts (t + j) tiles) fun j x hx => ?_
  obtain ⟨hj, rfl⟩ := List.getElem?_eq_some_iff.mp hx
  rw [List.getElem_range', Nat.one_mul]
  exact ⟨inOrder_tokenWrites .., fun k => counts_token ..⟩

theorem inOrder_tileZeros (t i n : ℕ) :
    InOrder (fun k => if k < 3 then t else if k = 3 then i else 0) ((List.range' i n).map fun i => ⟨3, i, 0⟩) := by
  induction n generalizing i with
  | zero => trivial
  | succ n ih =>
    refine ⟨rfl, ?_⟩
    have hnext : Function.update (fun k => if k < 3 then t else if k = 3 then i else 0) 3 (i + 1) =
        fun k => if k < 3 then t else if k = 3 then i + 1 else 0 := by
      funext k
      by_cases hk : k = 3
      · subst hk; rfl
      · simp [hk]
    have hrest := ih (i + 1)
    rw [← hnext] at hrest
    exact hrest

/-- The writes of `fill`, with what they leave in each part. -/
theorem fillWrites_spec (seqs : List (List UInt32)) (kinds : Option (List UInt32)) (n slots : ℕ) :
    InOrder (fun _ => 0) (fillWrites seqs kinds n slots) ∧
    ∀ k, wordsOf k (fillWrites seqs kinds n slots) =
      [seqs.flatten ++ List.replicate (n - tokensOf seqs) 0, positionWords seqs ++ List.replicate (n - tokensOf seqs) 0,
        kindWords kinds seqs ++ List.replicate (n - tokensOf seqs) 0,
        tileWords (tilesOf seqs) ++ List.replicate (3 * slots - 3 * tileCount seqs) 0].getD k [] := by
  have hzero : counts 0 0 = fun _ => 0 := by
    funext k
    simp [counts]
  have hbatch : ∀ k, counts (tokensOf seqs) (tileCount seqs) k =
      counts 0 0 k + (wordsOf k (batchWrites kinds 0 0 0 seqs).1).length := by
    intro k
    have hnext := batchWrites_length kinds 0 0 0 seqs k
    rwa [Nat.zero_add, Nat.zero_add] at hnext
  have htokens : ∀ k, (if k < 3 then tokensOf seqs + (n - tokensOf seqs) else if k = 3 then 3 * tileCount seqs else 0) =
      counts 0 0 k + (wordsOf k ((batchWrites kinds 0 0 0 seqs).1 ++
        (List.range' (tokensOf seqs) (n - tokensOf seqs)).flatMap fun i => tokenWrites i 0 0 0)).length := by
    intro k
    rw [wordsOf_append, List.length_append, ← Nat.add_assoc, ← hbatch, wordsOf_tokenZeros]
    by_cases hk : k < 3
    · simp [counts, hk]
    · simp [counts, hk]
  rw [fillWrites_eq]
  refine ⟨?_, fun k => ?_⟩
  · rw [← hzero]
    exact inOrder_append (inOrder_append (inOrder_batchWrites ..) hbatch (inOrder_tokenZeros ..)) htokens
      (inOrder_tileZeros ..)
  · rw [wordsOf_append, wordsOf_append, wordsOf_batchWrites, wordsOf_tokenZeros, wordsOf_tileZeros, tilesFrom_zero]
    match k with
    | 0 => simp
    | 1 => simp
    | 2 => simp [kindWords]
    | 3 => simp
    | k + 4 => simp

theorem part_lt_five {seqs : List (List UInt32)} {kinds : Option (List UInt32)} {n slots : ℕ} {w : Write}
    (hw : w ∈ fillWrites seqs kinds n slots) : w.part < 5 := by
  by_contra hpart
  have hwords := (fillWrites_spec seqs kinds n slots).2 w.part
  have hmem : w.v ∈ wordsOf w.part (fillWrites seqs kinds n slots) :=
    List.mem_map.mpr ⟨w, List.mem_filter.mpr ⟨hw, decide_eq_true rfl⟩, rfl⟩
  rw [hwords, List.getD_eq_default _ _ (by simpa using Nat.le_trans (by decide) (Nat.not_lt.mp hpart))] at hmem
  cases hmem

theorem length_flatten_ids (seqs : List (List UInt32)) : seqs.flatten.length = tokensOf seqs := List.length_flatten

theorem length_positionWords (seqs : List (List UInt32)) : (positionWords seqs).length = tokensOf seqs := by
  simp [positionWords, tokensOf, List.length_flatMap]

theorem length_kindWords (kinds : Option (List UInt32)) (seqs : List (List UInt32)) :
    (kindWords kinds seqs).length = tokensOf seqs := by
  have hfrom : ∀ s, ((seqs.zipIdx s).flatMap fun (seq, s) => List.replicate seq.length (kindOf kinds s)).length =
      tokensOf seqs := by
    induction seqs with
    | nil => exact fun _ => rfl
    | cons seq seqs ih =>
      intro s
      rw [List.zipIdx_cons, List.flatMap_cons, List.length_append, ih, List.length_replicate]
      rfl
  exact hfrom 0

theorem padded_of_holds {cap part n : ℕ} {buf words : List UInt32} (hn : words.length ≤ n)
    (h : Holds buf (at_ cap part) (words ++ List.replicate (n - words.length) 0)) : Padded cap part buf n words := by
  refine ⟨hn, ?_⟩
  rw [Holds, List.length_append, List.length_replicate, Nat.add_sub_cancel' hn] at h
  exact h

/-- A batch that fits the buffers is written to its places in them. -/
theorem fillsRight {cap : ℕ} {seqs : List (List UInt32)} (hcap : 64 ∣ cap) (hne : ∀ s ∈ seqs, s ≠ [])
    (hsmall : tokensOf seqs ≤ cap) : FillsRight cap seqs := by
  intro kinds buf _ hlen
  obtain ⟨horder, hwords⟩ := fillWrites_spec seqs kinds (shape seqs).1 (shape seqs).2
  have hn : tokensOf seqs ≤ (shape seqs).1 := (divCeil_le _).2
  have hncap : (shape seqs).1 ≤ cap := by
    obtain ⟨c, rfl⟩ := hcap
    have hlt := (divCeil_le (tokensOf seqs)).1
    rw [shape]
    omega
  have htiles : tileCount seqs ≤ (shape seqs).2 := tileCount_le seqs
  have hslots : (shape seqs).2 ≤ 2 * cap := by
    have hmany := length_le_tokensOf hne
    rw [shape] at hncap ⊢
    dsimp only at hncap ⊢
    omega
  have hids := length_flatten_ids seqs
  have hpositions := length_positionWords seqs
  have hkinds := length_kindWords kinds seqs
  have htileWords : (tileWords (tilesOf seqs)).length = 3 * tileCount seqs := by
    rw [length_tileWords, length_tilesOf]
  have hstart : Holding cap (fun _ => []) buf := ⟨hlen, fun _ _ => holds_nil⟩
  have hroom : ∀ k < 5, ([] : List UInt32).length +
      (wordsOf k (fillWrites seqs kinds (shape seqs).1 (shape seqs).2)).length ≤ size cap k := by
    intro k hk
    rw [hwords]
    interval_cases k
    · simp [size, sizes, -List.length_flatten, hids]; omega
    · simp [size, sizes]; omega
    · simp [size, sizes]; omega
    · simp [size, sizes, htileWords]; omega
    · simp [size, sizes]
  obtain ⟨hin, buf', hfill, hheld⟩ := hstart.foldlM (fun _ => part_lt_five) horder hroom
  have hpart : ∀ k < 5, Holds buf' (at_ cap k) (wordsOf k (fillWrites seqs kinds (shape seqs).1 (shape seqs).2)) :=
    fun k hk => hheld.holds k hk
  refine ⟨hin, buf', hfill, ?_, ?_, ?_, ?_⟩
  · refine padded_of_holds (hids ▸ hn) ?_
    have h0 := hpart 0 (by decide)
    rwa [hwords, ← hids] at h0
  · refine padded_of_holds (hpositions ▸ hn) ?_
    have h1 := hpart 1 (by decide)
    rwa [hwords, ← hpositions] at h1
  · refine padded_of_holds (hkinds ▸ hn) ?_
    have h2 := hpart 2 (by decide)
    rwa [hwords, ← hkinds] at h2
  · refine padded_of_holds (htileWords ▸ Nat.mul_le_mul_left 3 htiles) ?_
    have h3 := hpart 3 (by decide)
    rwa [hwords, ← htileWords] at h3

/-! ## Cutting into batches -/

theorem tokensOf_concat (seqs : List (List UInt32)) (s : List UInt32) :
    tokensOf (seqs ++ [s]) = tokensOf seqs + s.length := by
  simp [tokensOf]

/-- The batches are what is before them and the sequences left, cut where the next one does not fit. -/
theorem batchesFrom_spec {cap : ℕ} {out : List (List (List UInt32))} {cur rest : List (List UInt32)} {used : ℕ}
    (hused : used = tokensOf cur) (hcur : used ≤ cap) (hrest : ∀ s ∈ rest, s.length ≤ cap)
    (hout : ∀ b ∈ out, tokensOf b ≤ cap ∧ b ≠ []) :
    (batchesFrom cap out cur used rest).flatten = out.flatten ++ cur ++ rest ∧
    ∀ b ∈ batchesFrom cap out cur used rest, tokensOf b ≤ cap ∧ (b = [] → cur = [] ∧ rest = []) := by
  induction rest generalizing out cur used with
  | nil =>
    refine ⟨by simp [batchesFrom], fun b hb => ?_⟩
    rcases List.mem_append.mp hb with hb | hb
    · exact ⟨(hout b hb).1, fun h => absurd h (hout b hb).2⟩
    · obtain rfl := List.mem_singleton.mp hb
      exact ⟨hused ▸ hcur, fun h => ⟨h, rfl⟩⟩
  | cons s rest ih =>
    have hs : s.length ≤ cap := hrest s (List.mem_cons_self ..)
    have hrest' : ∀ s ∈ rest, s.length ≤ cap := fun s' hs' => hrest s' (List.mem_cons_of_mem _ hs')
    rw [batchesFrom]
    by_cases hover : cap < used + s.length
    · -- A batch without sequences has no tokens, so the one that is full has some.
      have hcurne : cur ≠ [] := by
        rintro rfl
        rw [hused, tokensOf, List.map_nil, List.sum_nil] at hover
        omega
      rw [if_pos hover]
      obtain ⟨hflat, hall⟩ := @ih (out ++ [cur]) [s] s.length (by simp [tokensOf]) hs hrest' fun b hb => by
        rcases List.mem_append.mp hb with hb | hb
        · exact hout b hb
        · obtain rfl := List.mem_singleton.mp hb
          exact ⟨hused ▸ hcur, hcurne⟩
      refine ⟨by simp [hflat], fun b hb => ⟨(hall b hb).1, fun h => ?_⟩⟩
      exact absurd ((hall b hb).2 h).1 (List.cons_ne_nil _ _)
    · rw [if_neg hover]
      obtain ⟨hflat, hall⟩ := @ih out (cur ++ [s]) (used + s.length) (by rw [tokensOf_concat, hused])
        (Nat.not_lt.mp hover) hrest' hout
      refine ⟨by simp [hflat], fun b hb => ⟨(hall b hb).1, fun h => ?_⟩⟩
      exact absurd ((hall b hb).2 h).1 (List.append_ne_nil_of_right_ne_nil _ (List.cons_ne_nil _ _))

theorem batches_ok {cap : ℕ} {seqs : List (List UInt32)} {bs : List (List (List UInt32))}
    (h : batches cap seqs = .ok bs) : (∀ s ∈ seqs, s ≠ [] ∧ s.length ≤ cap) ∧ bs = batchesFrom cap [] [] 0 seqs := by
  unfold batches at h
  split at h
  · cases h
  · rename_i hnone
    refine ⟨fun s hs => ?_, (Except.ok.inj h).symm⟩
    have hok := List.find?_eq_none.mp hnone s hs
    simpa using hok

theorem capacity_ok {tokens cap : ℕ} (h : capacity tokens = .ok cap) : 64 ∣ cap := by
  rw [capacity] at h
  split at h
  · cases h
  · rw [← Except.ok.inj h]
    exact Dvd.intro_left _ rfl

/-- Lists of sequences are cut and written right exactly when they have a sequence. -/
theorem covered_iff {tokens cap : ℕ} {seqs : List (List UInt32)} {bs : List (List (List UInt32))}
    (hcap : capacity tokens = .ok cap) (hbs : batches cap seqs = .ok bs) : Covered cap seqs bs ↔ seqs ≠ [] := by
  obtain ⟨hseqs, rfl⟩ := batches_ok hbs
  obtain ⟨hflat, hall⟩ := @batchesFrom_spec cap [] [] seqs 0 rfl (Nat.zero_le cap) (fun s hs => (hseqs s hs).2) nofun
  constructor
  · rintro hcovered rfl
    exact hcovered.nonempty [] (List.mem_singleton_self _) rfl
  · intro hne
    refine ⟨by simpa using hflat, fun b hb h => hne ((hall b hb).2 h).2, fun b hb => (hall b hb).1, fun b hb => ?_⟩
    refine fillsRight (capacity_ok hcap) (fun s hs => ?_) (hall b hb).1
    have hin : s ∈ (batchesFrom cap [] [] 0 seqs).flatten := List.mem_flatten.mpr ⟨b, hb, hs⟩
    rw [hflat] at hin
    exact (hseqs s (by simpa using hin)).1

/-- Three sequences over two batches; the first one takes two tiles. -/
theorem covered_three : Covered 128 [List.replicate 70 7, [1, 2, 3], List.replicate 60 9]
    [[List.replicate 70 7, [1, 2, 3]], [List.replicate 60 9]] :=
  (@covered_iff 100 128 [List.replicate 70 7, [1, 2, 3], List.replicate 60 9]
    [[List.replicate 70 7, [1, 2, 3]], [List.replicate 60 9]] (by decide) (by rfl)).mpr (by decide)

/-- No sequence is a batch without one. -/
theorem no_sequences_uncovered : ¬∀ tokens cap seqs bs, capacity tokens = .ok cap → batches cap seqs = .ok bs →
    Covered cap seqs bs := by
  intro h
  exact (h 1 64 [] [[]] (by decide) (by decide)).nonempty [] (List.mem_singleton_self _) rfl

end Chatlink.Encoder
