import Chatlink.Lib.Probing
import Chatlink.Token.Merging
import Chatlink.Token.Stored

/-!
# Tables

Merges and words are looked up by a hash, in tables of at least twice as many slots as there are entries. A merge takes
four words: the two tokens, the rank and what they make. The first word of a free slot is `NONE`.
-/
namespace Chatlink.Token

open Tokenizer

/-- The rank and result of merging `a` and `b`. -/
def Tokenizer.merge (t : Tokenizer) (a b : UInt32) : Option (UInt32 × UInt32) := do
  let i ← find t.merges a b
  let left ← t.merges[i]?
  let rank ← t.merges[i + 2]?
  let made ← t.merges[i + 3]?
  if left = NONE then none else some (rank, made)

/-- The first of the listed merges that joins `a` and `b`, with its place in the list. -/
def listed (ids : String → Option UInt32) (merges : List (String × String)) (a b : UInt32) : Option (UInt32 × UInt32) := do
  let m ← merges.zipIdx.find? fun m => ids m.1.1 = some a ∧ ids m.1.2 = some b
  let made ← ids (m.1.1 ++ m.1.2)
  some (UInt32.ofNat m.2, made)

/-- The token whose text is `text`, if the model ignores merges for such a piece. The search may go on for ever. -/
def Tokenizer.word (t : Tokenizer) (text : List UInt8) : Option (Option UInt32) :=
  if t.words = [] then some none
  else do
    let mask := t.words.length - 1
    let i ← probe (slot (fnv text) mask) mask fun i =>
      t.words[i]? = some NONE ∨ (t.words[i]?.map t.tokenBytes) = some text
    some (t.words[i]?.filter fun id => id ≠ NONE)

/-! ## Slots -/

section

open private Nat.nextPowerOfTwo.go from Init.Data.Nat.Power2.Basic

theorem le_nextPowerOfTwo_go (n p : ℕ) (h : 0 < p) : n ≤ Nat.nextPowerOfTwo.go n p h := by
  unfold Nat.nextPowerOfTwo.go
  split
  · exact le_nextPowerOfTwo_go n (p * 2) _
  · omega
termination_by n - p
decreasing_by omega

theorem le_nextPowerOfTwo (n : ℕ) : n ≤ n.nextPowerOfTwo := le_nextPowerOfTwo_go n 1 _

end

/-- The slots that a search from `start` looks at. -/
def around (mask start : ℕ) : List ℕ := (List.range (mask + 1)).map fun k => (start + k) &&& mask

theorem probe_eq (start mask : ℕ) (stop : ℕ → Bool) : probe start mask stop = (around mask start).find? stop := rfl

theorem le_of_mem_around {mask start i : ℕ} (h : i ∈ around mask start) : i ≤ mask := by
  obtain ⟨j, -, rfl⟩ := List.mem_map.mp h
  exact Nat.and_le_right

/-- Every slot is looked at. -/
theorem mem_around {mask : ℕ} (hmask : (mask + 1).isPowerOfTwo) (start : ℕ) {i : ℕ} (hi : i ≤ mask) : i ∈ around mask start := by
  obtain ⟨p, hp⟩ := hmask
  obtain rfl : mask = 2 ^ p - 1 := by omega
  have hpos := Nat.two_pow_pos p
  have hlt := Nat.mod_lt start hpos
  refine List.mem_map.mpr ⟨(i + (2 ^ p - start % 2 ^ p)) % 2 ^ p, ?_, ?_⟩
  · rw [List.mem_range, hp]
    exact Nat.mod_lt _ hpos
  · have hsum : start % 2 ^ p + (i + (2 ^ p - start % 2 ^ p)) = i + 2 ^ p := by omega
    rw [Nat.and_two_pow_sub_one_eq_mod, Nat.add_mod_mod, ← Nat.mod_add_mod, hsum, Nat.add_mod_right,
      Nat.mod_eq_of_lt (by omega)]

/-- A table for `n` entries has a power of two of slots, and more than `n`. -/
theorem room (n : ℕ) : ∃ mask, max (2 * n).nextPowerOfTwo 2 = mask + 1 ∧ (mask + 1).isPowerOfTwo ∧ n < mask + 1 := by
  have hle := le_nextPowerOfTwo (2 * n)
  have hmask : max (2 * n).nextPowerOfTwo 2 = max (2 * n).nextPowerOfTwo 2 - 1 + 1 := by omega
  refine ⟨_, hmask, ?_, by omega⟩
  rw [← hmask]
  obtain hmax | hmax := max_choice (2 * n).nextPowerOfTwo 2
  · rw [hmax]
    exact Nat.isPowerOfTwo_nextPowerOfTwo _
  · rw [hmax]
    exact ⟨1, rfl⟩

/-! ## Merges -/

/-- The slots a pair is looked for in. -/
def pairOrder (mask : ℕ) (k : UInt32 × UInt32) : List ℕ := around mask (slot (k.1.toUInt64 <<< 32 ||| k.2.toUInt64) mask)

def pairSlots (table : List UInt32) : Probing.Slots (UInt32 × UInt32) (UInt32 × UInt32) := fun i =>
  match table[4 * i]?, table[4 * i + 1]?, table[4 * i + 2]?, table[4 * i + 3]? with
  | some a, some b, some rank, some made => if a = NONE then none else some ((a, b), (rank, made))
  | _, _, _, _ => none

section

variable {mask : ℕ} {table : List UInt32} {a b : UInt32} {i : ℕ}

/-- The four words of a slot. -/
theorem slot_words (hlen : table.length = 4 * (mask + 1)) (hi : i ≤ mask) :
    ∃ a b rank made, table[4 * i]? = some a ∧ table[4 * i + 1]? = some b ∧ table[4 * i + 2]? = some rank ∧
      table[4 * i + 3]? = some made ∧ pairSlots table i = if a = NONE then none else some ((a, b), (rank, made)) := by
  have h₀ := List.getElem?_eq_getElem (show 4 * i < table.length by omega)
  have h₁ := List.getElem?_eq_getElem (show 4 * i + 1 < table.length by omega)
  have h₂ := List.getElem?_eq_getElem (show 4 * i + 2 < table.length by omega)
  have h₃ := List.getElem?_eq_getElem (show 4 * i + 3 < table.length by omega)
  refine ⟨_, _, _, _, h₀, h₁, h₂, h₃, ?_⟩
  rw [pairSlots, h₀, h₁, h₂, h₃]

/-- The search of the source is that of the slots. -/
theorem find_eq (hlen : table.length = 4 * (mask + 1)) (a b : UInt32) :
    find table a b = (Probing.find (pairOrder mask) (pairSlots table) (a, b)).map (4 * ·) := by
  have hmask : table.length / 4 - 1 = mask := by omega
  simp only [find, hmask]
  congr 1
  rw [probe_eq, Probing.find]
  refine List.find?_congr fun i hi => ?_
  obtain ⟨x, y, rank, made, h₀, h₁, h₂, h₃, hslot⟩ := slot_words hlen (le_of_mem_around hi)
  rw [h₀, h₁, decide_eq_decide]
  by_cases hx : x = NONE
  · rw [if_pos hx] at hslot
    exact iff_of_true (.inl (congrArg some hx)) (Probing.stops_none hslot)
  · rw [if_neg hx] at hslot
    rw [Probing.stops_some hslot, Option.some.injEq, Option.some.injEq, Option.some.injEq, Prod.mk.injEq]
    exact or_iff_right hx

/-- What a search of the source ends at. -/
theorem merge_eq {t : Tokenizer} (hlen : t.merges.length = 4 * (mask + 1))
    (hi : Probing.find (pairOrder mask) (pairSlots t.merges) (a, b) = some i) :
    t.merge a b = (pairSlots t.merges i).map Prod.snd := by
  have hle : i ≤ mask := le_of_mem_around (List.mem_of_find?_eq_some hi)
  obtain ⟨x, y, rank, made, h₀, -, h₂, h₃, hslot⟩ := slot_words hlen hle
  rw [Tokenizer.merge, find_eq hlen, hi, hslot]
  simp only [Option.map_some, h₀, h₂, h₃, Option.bind_eq_bind, Option.bind_some]
  split_ifs <;> rfl

/-- The words of a slot are set together. -/
theorem pairSlots_set (hlen : table.length = 4 * (mask + 1)) (hi : i ≤ mask) (a b rank made : UInt32) :
    pairSlots ((((table.set (4 * i) a).set (4 * i + 1) b).set (4 * i + 2) rank).set (4 * i + 3) made) =
      Function.update (pairSlots table) i (if a = NONE then none else some ((a, b), (rank, made))) := by
  funext j
  rcases eq_or_ne j i with rfl | hne
  · have hlt : 4 * j + 3 < table.length := by omega
    rw [Function.update_self, pairSlots]
    simp [hlt, show 4 * j < table.length by omega, show 4 * j + 1 < table.length by omega,
      show 4 * j + 2 < table.length by omega]
  · have hword : ∀ c < 4, ((((table.set (4 * i) a).set (4 * i + 1) b).set (4 * i + 2) rank).set (4 * i + 3) made)[4 * j + c]? =
        table[4 * j + c]? := by
      intro c hc
      rw [List.getElem?_set_ne (by omega), List.getElem?_set_ne (by omega), List.getElem?_set_ne (by omega),
        List.getElem?_set_ne (by omega)]
    have hfirst := hword 0 (by omega)
    simp only [add_zero] at hfirst
    rw [Function.update_of_ne hne, pairSlots, pairSlots, hfirst, hword 1 (by omega), hword 2 (by omega), hword 3 (by omega)]

/-- The table of `entries`. -/
structure Tabled (mask : ℕ) (table : List UInt32) (entries : List ((UInt32 × UInt32) × (UInt32 × UInt32))) : Prop where
  length : table.length = 4 * (mask + 1)
  holds : Probing.Holds (pairOrder mask) (pairSlots table) entries
  taken : Probing.Taken (pairSlots table) entries.length

theorem tabled_empty (mask : ℕ) : Tabled mask (List.replicate (4 * (mask + 1)) NONE) [] := by
  have hnone : ∀ i, pairSlots (List.replicate (4 * (mask + 1)) NONE) i = none := by
    intro i
    simp only [pairSlots, List.getElem?_replicate]
    split
    · split_ifs at * <;> simp_all
    · rfl
  exact ⟨List.length_replicate, Probing.holds_empty hnone, Probing.taken_empty hnone⟩

/-- A search ends while there is room. -/
theorem Tabled.ends {entries : List ((UInt32 × UInt32) × (UInt32 × UInt32))} (h : Tabled mask table entries)
    (hmask : (mask + 1).isPowerOfTwo) (hroom : entries.length < mask + 1) (a b : UInt32) :
    ∃ i ≤ mask, Probing.find (pairOrder mask) (pairSlots table) (a, b) = some i := by
  obtain ⟨j, hj, hfree⟩ := h.taken.exists_free hroom
  obtain ⟨i, hi⟩ : ∃ i, Probing.find (pairOrder mask) (pairSlots table) (a, b) = some i :=
    Probing.find_isSome (mem_around hmask _ (Nat.le_of_lt_succ hj)) hfree
  exact ⟨i, le_of_mem_around (List.mem_of_find?_eq_some hi), hi⟩

/-- What a listed merge puts into the table. -/
def entry (ids : String → Option UInt32) (m : (String × String) × ℕ) : Option ((UInt32 × UInt32) × (UInt32 × UInt32)) := do
  let left ← ids m.1.1
  let right ← ids m.1.2
  let made ← ids (m.1.1 ++ m.1.2)
  some ((left, right), (UInt32.ofNat m.2, made))

/-- A merge of unknown tokens is an error; another is looked for, and put where there is none. -/
theorem addMerge_cases (ids : String → Option UInt32) (table : List UInt32) (m : (String × String) × ℕ) :
    (∃ e, addMerge ids table m = some (.error e)) ∨
      ∃ left right made, entry ids m = some ((left, right), (UInt32.ofNat m.2, made)) ∧
        addMerge ids table m = (find table left right).map fun i => .ok
          (if table[i]? = some NONE then
            (((table.set i left).set (i + 1) right).set (i + 2) (UInt32.ofNat m.2)).set (i + 3) made
          else table) := by
  obtain ⟨⟨x, y⟩, rank⟩ := m
  cases hleft : ids x with
  | none =>
    refine .inl ⟨.format s!"tokenizer: merge \"{x}\" + \"{y}\" names an unknown token", ?_⟩
    simp only [addMerge, hleft]
    rfl
  | some left =>
    cases hright : ids y with
    | none =>
      refine .inl ⟨.format s!"tokenizer: merge \"{x}\" + \"{y}\" names an unknown token", ?_⟩
      simp only [addMerge, hleft, hright]
      rfl
    | some right =>
      cases hmade : ids (x ++ y) with
      | none =>
        refine .inl ⟨.format s!"tokenizer: merge \"{x}\" + \"{y}\" names an unknown token", ?_⟩
        simp only [addMerge, hleft, hright, hmade]
        rfl
      | some made =>
        refine .inr ⟨left, right, made, by simp [entry, hleft, hright, hmade], ?_⟩
        simp only [addMerge, hleft, hright, hmade]
        cases hfind : find table left right with
        | none =>
          change (liftM (find table left right) : Building ℕ) >>= _ = none
          rw [hfind]
          rfl
        | some i =>
          change (liftM (find table left right) : Building ℕ) >>= _ = some (.ok (ite _ _ _))
          rw [hfind]
          change (if table[i]? = some NONE then _ else _ : Building (List UInt32)) = _
          split_ifs <;> rfl

section

variable {ids : String → Option UInt32} {entries : List ((UInt32 × UInt32) × (UInt32 × UInt32))}

/-- Whether a pair can be told from a free slot. -/
def told (e : (UInt32 × UInt32) × (UInt32 × UInt32)) : Bool := e.1.1 ≠ NONE

/-- A merge goes into the table, unless its tokens are joined already. -/
theorem Tabled.add (h : Tabled mask table entries) (hmask : (mask + 1).isPowerOfTwo) (hroom : entries.length < mask + 1)
    (m : (String × String) × ℕ) :
    ∃ r, addMerge ids table m = some r ∧
      ∀ table', r = .ok table' → ∃ e, entry ids m = some e ∧ Tabled mask table' (entries ++ [e].filter told) := by
  obtain ⟨e, he⟩ | ⟨left, right, made, hentry, hadd⟩ := addMerge_cases ids table m
  · refine ⟨_, he, fun table' h => ?_⟩
    cases h
  · obtain ⟨j, hle, hj⟩ := h.ends hmask hroom left right
    rw [find_eq h.length, hj] at hadd
    refine ⟨_, hadd, fun table' htable => ⟨_, hentry, ?_⟩⟩
    obtain rfl := Except.ok.inj htable
    obtain ⟨x, y, rank, result, h₀, -, -, -, hslot⟩ := slot_words h.length hle
    rw [h₀]
    by_cases hx : x = NONE
    · have hset := pairSlots_set h.length hle left right (UInt32.ofNat m.2) made
      rw [if_pos hx] at hslot
      rw [if_pos (congrArg some hx)]
      refine ⟨by simp only [List.length_set, h.length], ?_, ?_⟩
      · by_cases hnone : left = NONE
        · -- the slot stays free
          obtain rfl := hnone
          rw [if_pos rfl, ← hslot, Function.update_eq_self] at hset
          simpa [told, hset] using h.holds
        · rw [if_neg hnone] at hset
          simpa [told, hnone, hset] using h.holds.insert (Probing.free_of_find hj hslot) _
      · rw [hset]
        by_cases hnone : left = NONE
        · rw [if_pos hnone, ← hslot, Function.update_eq_self]
          simpa [told, hnone] using h.taken
        · simpa [told, hnone] using h.taken.insert j _
    · rw [if_neg hx] at hslot
      rw [if_neg fun hnone => hx (Option.some.inj hnone)]
      obtain ⟨rfl, rfl⟩ : x = left ∧ y = right := by
        simpa using (Probing.stops_some hslot).mp (Probing.find_eq_some.mp hj).1
      refine ⟨h.length, ?_, ?_⟩
      · simpa [told, hx] using h.holds.again hj (by rw [hslot]; exact Option.some_ne_none _) (UInt32.ofNat m.2, made)
      · exact h.taken.mono (by rw [List.length_append]; exact Nat.le_add_right _ _)

/-- The table of all merges. -/
theorem Tabled.addAll (h : Tabled mask table entries) (hmask : (mask + 1).isPowerOfTwo)
    {merges : List ((String × String) × ℕ)} (hroom : entries.length + merges.length < mask + 1) :
    ∃ r, merges.foldlM (addMerge ids) table = some r ∧
      ∀ table', r = .ok table' → ∃ es, merges.mapM (entry ids) = some es ∧ Tabled mask table' (entries ++ es.filter told) := by
  induction merges generalizing table entries with
  | nil =>
    refine ⟨.ok table, rfl, fun table' htable => ⟨[], rfl, ?_⟩⟩
    obtain rfl := Except.ok.inj htable
    rwa [List.filter_nil, List.append_nil]
  | cons m merges ih =>
    rw [List.length_cons] at hroom
    obtain ⟨r, hr, hadd⟩ := h.add hmask (by omega) m
    rw [List.foldlM_cons]
    cases r with
    | error e =>
      refine ⟨.error e, ?_, fun table' htable => by cases htable⟩
      rw [show addMerge ids table m = some (.error e) from hr]
      rfl
    | ok mid =>
      obtain ⟨e, he, hmid⟩ := hadd mid rfl
      have hlen : (entries ++ [e].filter told).length + merges.length < mask + 1 := by
        have hone := List.length_filter_le told [e]
        rw [List.length_singleton] at hone
        rw [List.length_append]
        omega
      obtain ⟨r, hr', hall⟩ := ih hmid hlen
      refine ⟨r, ?_, fun table' htable => ?_⟩
      · rw [show addMerge ids table m = some (.ok mid) from hr]
        exact hr'
      · obtain ⟨es, hes, hfinal⟩ := hall table' htable
        refine ⟨e :: es, ?_, ?_⟩
        · rw [List.mapM_cons, he, Option.bind_eq_bind, Option.bind_some, hes]
          rfl
        · rwa [List.append_assoc, ← List.filter_append] at hfinal

/-- What is put in first for two tokens is the first merge that joins them. -/
theorem assoc_entries {merges : List ((String × String) × ℕ)} {es : List ((UInt32 × UInt32) × (UInt32 × UInt32))}
    (h : merges.mapM (entry ids) = some es) (ha : a ≠ NONE) :
    Probing.assoc (es.filter told) (a, b) =
      (merges.find? fun m => ids m.1.1 = some a ∧ ids m.1.2 = some b).bind fun m =>
        (ids (m.1.1 ++ m.1.2)).bind fun made => some (UInt32.ofNat m.2, made) := by
  induction merges generalizing es with
  | nil =>
    cases h
    rfl
  | cons m merges ih =>
    rw [List.mapM_cons] at h
    obtain ⟨e, he, h⟩ := Option.bind_eq_some_iff.mp h
    obtain ⟨es', hes, h⟩ := Option.bind_eq_some_iff.mp h
    cases h
    unfold entry at he
    obtain ⟨left, hleft, he⟩ := Option.bind_eq_some_iff.mp he
    obtain ⟨right, hright, he⟩ := Option.bind_eq_some_iff.mp he
    obtain ⟨made, hmade, he⟩ := Option.bind_eq_some_iff.mp he
    cases he
    have hih := ih hes
    rw [Probing.assoc, List.find?_filter] at hih ⊢
    rw [List.find?_cons, List.find?_cons, hleft, hright]
    by_cases hk : left = a ∧ right = b
    · obtain ⟨rfl, rfl⟩ := hk
      simp [told, ha, hmade]
    · have hkey : ((left, right) : UInt32 × UInt32) ≠ (a, b) := fun heq => hk (by simpa using heq)
      simp only [decide_eq_false hkey, Bool.false_eq_true, and_false, decide_false, Option.some.injEq, decide_eq_false hk]
      exact hih

end

end

/-! ## The merges of a tokenizer -/

section

variable {α β : Type} {P : α → Prop} {Q : β → Prop}

/-- Building ends, and what is built is as `P` says. -/
def Ends (x : Building α) (P : α → Prop) : Prop := ∃ r, x = some r ∧ ∀ a, r = .ok a → P a

theorem ends_pure {a : α} (h : P a) : Ends (pure a) P := ⟨.ok a, rfl, fun _ hb => Except.ok.inj hb ▸ h⟩

theorem ends_error (e : Error) : Ends (throw e) P := ⟨.error e, rfl, fun a ha => by cases ha⟩

theorem ends_except (e : Except Error α) : Ends (liftM e) fun a => e = .ok a := by
  cases e with
  | error e => exact ⟨.error e, rfl, fun a ha => by cases ha⟩
  | ok a => exact ⟨.ok a, rfl, fun _ hb => hb⟩

theorem ends_some {a : α} (h : P a) : Ends (liftM (some a)) P := ends_pure h

theorem Ends.bind {x : Building α} {f : α → Building β} (h : Ends x P) (hf : ∀ a, P a → Ends (f a) Q) : Ends (x >>= f) Q := by
  obtain ⟨r, rfl, hr⟩ := h
  cases r with
  | error e => exact ⟨.error e, rfl, fun b hb => by cases hb⟩
  | ok a => exact hf a (hr a rfl)

end

theorem length_mapM {α β : Type} {f : α → Option β} {l : List α} {m : List β} (h : l.mapM f = some m) : m.length = l.length := by
  induction l generalizing m with
  | nil =>
    cases h
    rfl
  | cons a l ih =>
    rw [List.mapM_cons] at h
    obtain ⟨b, -, h⟩ := Option.bind_eq_some_iff.mp h
    obtain ⟨bs, hbs, h⟩ := Option.bind_eq_some_iff.mp h
    cases h
    rw [List.length_cons, List.length_cons, ih hbs]

/-- What adding a token leaves as it is. -/
structure Kept (t t' : Tokenizer) : Prop where
  flags : t'.flags = t.flags
  unk : t'.unk = t.unk
  special : t'.special = t.special
  merges : t'.merges = t.merges
  words : t'.words = t.words

theorem kept_refl (t : Tokenizer) : Kept t t := ⟨rfl, rfl, rfl, rfl, rfl⟩

theorem Kept.trans {t t' t'' : Tokenizer} (h : Kept t t') (h' : Kept t' t'') : Kept t t'' :=
  ⟨h'.flags.trans h.flags, h'.unk.trans h.unk, h'.special.trans h.special, h'.merges.trans h.merges, h'.words.trans h.words⟩

theorem kept_addPiece (t : Tokenizer) (id : UInt32) (name : String) : Kept t (t.addPiece id name) := by
  unfold Tokenizer.addPiece
  dsimp only
  split <;> exact ⟨rfl, rfl, rfl, rfl, rfl⟩

theorem kept_addChar (t : Tokenizer) (id : UInt32) (name : String) : Kept t (t.addChar id name) := by
  unfold Tokenizer.addChar
  split
  · split_ifs <;> exact ⟨rfl, rfl, rfl, rfl, rfl⟩
  · exact kept_refl t

theorem kept_add (t : Tokenizer) (id : UInt32) (name : String) : Kept t (t.add id name) := by
  unfold Tokenizer.add Tokenizer.addByteToken Tokenizer.addToken
  dsimp only
  split_ifs
  · split <;> exact ⟨rfl, rfl, rfl, rfl, rfl⟩
  · exact kept_addPiece t id name
  · exact (kept_addPiece t id name).trans (kept_addChar _ id name)

theorem kept_addAll (names : List (String × ℕ)) (t : Tokenizer) :
    Kept t (names.foldl (fun t (name, id) => t.add (UInt32.ofNat id) name) t) := by
  induction names generalizing t with
  | nil => exact kept_refl t
  | cons name names ih => exact (kept_add t _ name.1).trans (ih _)

theorem Tabled.merge {t : Tokenizer} {merges : List (String × String)} {ids : String → Option UInt32} {mask : ℕ}
    {es : List ((UInt32 × UInt32) × (UInt32 × UInt32))} (h : Tabled mask t.merges (es.filter told))
    (hmask : (mask + 1).isPowerOfTwo) (hes : merges.zipIdx.mapM (entry ids) = some es) (hroom : merges.length < mask + 1)
    (a b : UInt32) :
    (∃ i, find t.merges a b = some i) ∧ t.merge a b = if a = NONE then none else listed ids merges a b := by
  have hlen := length_mapM hes
  have hle := List.length_filter_le told es
  rw [List.length_zipIdx] at hlen
  obtain ⟨i, -, hi⟩ := h.ends hmask (by omega) a b
  refine ⟨⟨4 * i, by rw [find_eq h.length, hi]; rfl⟩, ?_⟩
  rw [merge_eq h.length hi, h.holds.find hi]
  split_ifs with ha
  · have hnone : Probing.assoc (es.filter told) (a, b) = none := by
      rw [Probing.assoc, List.find?_eq_none.mpr, Option.map_none]
      intro e he hk
      have htold := List.of_mem_filter he
      rw [told, of_decide_eq_true hk] at htold
      exact of_decide_eq_true htold ha
    rw [hnone]
    rfl
  · rw [assoc_entries hes ha, Option.map_map]
    exact Option.map_id'

/-- Building ends, and so does every search in the table of merges, which finds the first merge of the list that joins the
two tokens. -/
theorem build_merges (vocab : List (String × UInt32)) (merges : List (String × String)) (special added : List UInt32)
    (unk : Option String) (flags : UInt32) : Ends (build vocab merges special added unk flags) fun t =>
      t.words = [] ∧ ∀ a b, (∃ i, find t.merges a b = some i) ∧
        t.merge a b = if a = NONE then none else listed (fun s => vocab.reverse.lookup s) merges a b := by
  obtain ⟨mask, hmask, hpower, hlt⟩ := room merges.length
  obtain ⟨r, hr, hall⟩ := @Tabled.addAll mask _ (fun s => vocab.reverse.lookup s) [] (tabled_empty mask) hpower merges.zipIdx
    (by rw [List.length_zipIdx, List.length_nil, Nat.zero_add]; exact hlt)
  have hkept := kept_addAll (namesOf vocab).zipIdx (empty flags ((unk >>= fun s => vocab.reverse.lookup s).getD NONE)
    (special.mergeSort (· ≤ ·)) merges.length)
  rw [← hkept.merges.trans (congrArg (fun n => List.replicate (4 * n) NONE) hmask)] at hr
  unfold build
  refine Ends.bind (P := fun table => ∃ es, merges.zipIdx.mapM (entry fun s => vocab.reverse.lookup s) = some es ∧
    Tabled mask table (es.filter told)) ⟨r, hr, hall⟩ fun table h => ends_pure ⟨hkept.words, ?_⟩
  obtain ⟨es, hes, htable⟩ := h
  exact htable.merge hpower hes hlt

/-! ## Words -/

/-- The slots a text is looked for in. -/
def wordOrder (mask : ℕ) (text : List UInt8) : List ℕ := around mask (slot (fnv text) mask)

def wordSlots (t : Tokenizer) (table : List UInt32) : Probing.Slots (List UInt8) UInt32 := fun i =>
  (table[i]?.filter fun id => id ≠ NONE).map fun id => (t.tokenBytes id, id)

section

variable {t : Tokenizer} {mask : ℕ} {table : List UInt32}

theorem wordSlots_eq_none {i : ℕ} (hi : i < table.length) : wordSlots t table i = none ↔ table[i]? = some NONE := by
  rw [wordSlots, List.getElem?_eq_getElem hi]
  by_cases h : table[i] = NONE <;> simp [h]

theorem wordSlots_set {i : ℕ} {id : UInt32} (hi : i < table.length) (hid : id ≠ NONE) :
    wordSlots t (table.set i id) = Function.update (wordSlots t table) i (some (t.tokenBytes id, id)) := by
  funext j
  rcases eq_or_ne j i with rfl | hne
  · rw [Function.update_self, wordSlots, List.getElem?_set_self hi]
    simp [hid]
  · rw [Function.update_of_ne hne, wordSlots, wordSlots, List.getElem?_set_ne hne.symm]

/-- The search for a free slot is that of the slots. -/
theorem probe_free (hlen : table.length = mask + 1) (text : List UInt8) :
    (probe (slot (fnv text) mask) mask fun i => table[i]? = some NONE) = Probing.free (wordOrder mask) (wordSlots t table) text := by
  refine List.find?_congr fun i hi => ?_
  have hle := le_of_mem_around hi
  rw [Bool.eq_iff_iff, decide_eq_true_iff, Option.isNone_iff_eq_none, wordSlots_eq_none (by omega)]

/-- The search for a text is that of the slots. -/
theorem probe_word (hlen : table.length = mask + 1) (text : List UInt8) :
    (probe (slot (fnv text) mask) mask fun i => table[i]? = some NONE ∨ table[i]?.map t.tokenBytes = some text) =
      Probing.find (wordOrder mask) (wordSlots t table) text := by
  refine List.find?_congr fun i hi => ?_
  have hle := le_of_mem_around hi
  have hget := List.getElem?_eq_getElem (show i < table.length by omega)
  rw [decide_eq_decide, hget]
  by_cases hid : table[i] = NONE
  · refine iff_of_true (.inl (congrArg some hid)) (Probing.stops_none ?_)
    rw [wordSlots_eq_none (by omega), hget, hid]
  · have hslot : wordSlots t table i = some (t.tokenBytes table[i], table[i]) := by
      rw [wordSlots, hget]
      simp [hid]
    rw [Probing.stops_some hslot, Option.map_some, Option.some.injEq, Option.some.injEq]
    exact or_iff_right hid

/-- The table of `entries`. -/
structure Indexed (t : Tokenizer) (mask : ℕ) (table : List UInt32) (entries : List (List UInt8 × UInt32)) : Prop where
  length : table.length = mask + 1
  holds : Probing.Holds (wordOrder mask) (wordSlots t table) entries
  taken : Probing.Taken (wordSlots t table) entries.length

theorem indexed_empty (t : Tokenizer) (mask : ℕ) : Indexed t mask (List.replicate (mask + 1) NONE) [] := by
  have hnone : ∀ i, wordSlots t (List.replicate (mask + 1) NONE) i = none := by
    intro i
    rw [wordSlots, List.getElem?_replicate]
    split_ifs <;> rfl
  exact ⟨List.length_replicate, Probing.holds_empty hnone, Probing.taken_empty hnone⟩

/-- The entries of some tokens. -/
def entries (t : Tokenizer) (ids : List UInt32) : List (List UInt8 × UInt32) := ids.map fun id => (t.tokenBytes id, id)

/-- A token finds a free slot. -/
theorem Indexed.add {es : List (List UInt8 × UInt32)} (h : Indexed t mask table es) (hmask : (mask + 1).isPowerOfTwo)
    (hroom : es.length < mask + 1) {id : UInt32} (hid : id ≠ NONE) :
    ∃ i, (probe (slot (fnv (t.tokenBytes id)) mask) mask fun i => table[i]? = some NONE) = some i ∧
      Indexed t mask (table.set i id) (es ++ [(t.tokenBytes id, id)]) := by
  obtain ⟨j, hj, hfree⟩ := h.taken.exists_free hroom
  obtain ⟨i, hi⟩ : ∃ i, Probing.free (wordOrder mask) (wordSlots t table) (t.tokenBytes id) = some i :=
    Probing.free_isSome (mem_around hmask _ (Nat.le_of_lt_succ hj)) hfree
  have hle : i ≤ mask := le_of_mem_around (List.mem_of_find?_eq_some hi)
  have hset := @wordSlots_set t table i id (by rw [h.length]; omega) hid
  refine ⟨i, (probe_free h.length _).trans hi, by rw [List.length_set, h.length], ?_, ?_⟩
  · rw [hset]
    exact h.holds.insert hi id
  · rw [hset, List.length_append]
    exact h.taken.insert i _

theorem Indexed.addAll {es : List (List UInt8 × UInt32)} (h : Indexed t mask table es) (hmask : (mask + 1).isPowerOfTwo)
    {ids : List UInt32} (hroom : es.length + ids.length < mask + 1) (hids : ∀ id ∈ ids, id ≠ NONE) :
    ∃ table', (ids.foldlM (fun table id => do
        let i ← probe (slot (fnv (t.tokenBytes id)) mask) mask fun i => table[i]? = some NONE
        pure (table.set i id)) table : Option (List UInt32)) = some table' ∧ Indexed t mask table' (es ++ entries t ids) := by
  induction ids generalizing table es with
  | nil => exact ⟨table, rfl, by rwa [entries, List.map_nil, List.append_nil]⟩
  | cons id ids ih =>
    rw [List.length_cons] at hroom
    obtain ⟨i, hi, hadd⟩ := h.add hmask (by omega) (hids id List.mem_cons_self)
    obtain ⟨table', htable, hall⟩ := ih hadd (by rw [List.length_append, List.length_singleton]; omega)
      fun id hid => hids id (List.mem_cons_of_mem _ hid)
    refine ⟨table', ?_, by rwa [List.append_assoc] at hall⟩
    rw [List.foldlM_cons, hi]
    exact htable

end

theorem assoc_entries_words (t : Tokenizer) (ids : List UInt32) (text : List UInt8) :
    Probing.assoc (entries t ids) text = ids.find? fun id => t.tokenBytes id = text := by
  rw [Probing.assoc, entries, List.find?_map, Option.map_map]
  exact Option.map_id'

theorem Indexed.word {t : Tokenizer} {mask : ℕ} {table ids : List UInt32} (h : Indexed t mask table (entries t ids))
    (hmask : (mask + 1).isPowerOfTwo) (hroom : ids.length < mask + 1) (text : List UInt8) :
    ({ t with words := table } : Tokenizer).word text = some (ids.find? fun id => t.tokenBytes id = text) := by
  have hnil : table ≠ [] := by
    intro hnil
    have hlen := h.length
    rw [hnil, List.length_nil] at hlen
    omega
  obtain ⟨j, hj, hfree⟩ := h.taken.exists_free (show (entries t ids).length < mask + 1 by rwa [entries, List.length_map])
  obtain ⟨i, hi⟩ : ∃ i, Probing.find (wordOrder mask) (wordSlots t table) text = some i :=
    Probing.find_isSome (mem_around hmask _ (Nat.le_of_lt_succ hj)) hfree
  have hslot := h.holds.find hi
  have hfilter : (table[i]?.filter fun id => id ≠ NONE) = (wordSlots t table i).map Prod.snd := by
    rw [wordSlots, Option.map_map]
    exact Option.map_id'.symm
  have hsearch : (probe (slot (fnv text) (table.length - 1)) (table.length - 1) fun i =>
      table[i]? = some NONE ∨ table[i]?.map t.tokenBytes = some text) = some i := by
    rw [h.length, Nat.add_sub_cancel]
    exact (probe_word h.length text).trans hi
  have hword : ({ t with words := table } : Tokenizer).word text = (some i).bind fun i => some (table[i]?.filter fun id => id ≠ NONE) :=
    (if_neg hnil).trans (congrArg (fun x => Option.bind x _) hsearch)
  rw [hword, Option.bind_some, hfilter, hslot, assoc_entries_words, Option.map_map]
  exact congrArg some Option.map_id'

/-- Filling the table of words ends, and so does every search in it, which finds the first token that has the text and is
not one of the added ones. -/
theorem indexWords_word (t : Tokenizer) (skip : List UInt32) :
    ∃ table, t.indexWords skip = some { t with words := table } ∧ ∀ text,
      ({ t with words := table } : Tokenizer).word text = some (((List.range (UInt32.ofNat t.len).toNat).map UInt32.ofNat).find? fun id =>
        !skip.contains id && t.tokenBytes id = text) := by
  obtain ⟨mask, hmask, hpower, hlt⟩ := room t.len
  set ids := ((List.range (UInt32.ofNat t.len).toNat).map UInt32.ofNat).filter fun id => !skip.contains id with hids
  have hle : (UInt32.ofNat t.len).toNat ≤ t.len := by
    rw [UInt32.toNat_ofNat']
    exact Nat.mod_le _ _
  have hlen : ids.length ≤ t.len := by
    refine (List.length_filter_le _ _).trans ?_
    rwa [List.length_map, List.length_range]
  have hne : ∀ id ∈ ids, id ≠ NONE := by
    intro id hid
    obtain ⟨k, hk, rfl⟩ := List.mem_map.mp (List.mem_of_mem_filter hid)
    have hbound := (UInt32.ofNat t.len).toNat_lt
    rw [List.mem_range] at hk
    intro hnone
    have hnat := congrArg UInt32.toNat hnone
    rw [UInt32.toNat_ofNat', Nat.mod_eq_of_lt (by omega), show NONE.toNat = 2 ^ 32 - 1 from rfl] at hnat
    omega
  obtain ⟨table, htable, hindexed⟩ := (indexed_empty t mask).addAll hpower (by rw [List.length_nil]; omega) hne
  refine ⟨table, ?_, fun text => ?_⟩
  · unfold indexWords
    simp only [hmask, List.length_replicate, Nat.add_sub_cancel]
    exact congrArg (fun x => x >>= _) htable
  · rw [List.nil_append] at hindexed
    rw [hindexed.word hpower (by omega), hids, List.find?_filter]
    simp only [Bool.decide_and, Bool.decide_eq_true]

/-! ## The tables of a document -/

/-- The merges that a document lists. -/
def mergesOf (model : Json) : List (String × String) := ((model.arrAt "merges").getD []).filterMap pair

/-- The IDs that a document gives to names, the last of each. -/
def idsOf (doc model : Json) (s : String) : Option UInt32 := (vocabulary doc model).reverse.lookup s

/-- The first token that has a text, of those that were not added. -/
def firstWord (t : Tokenizer) (doc : Json) (text : List UInt8) : Option UInt32 :=
  let (special, plain) := (addedTokens (doc.get "added_tokens")).2
  ((List.range (UInt32.ofNat t.len).toNat).map UInt32.ofNat).find? fun id =>
    !(special ++ plain).contains id && t.tokenBytes id = text

/-- Reading a document ends; so does every search in the tables of its tokenizer, that of a pair at the first merge in the
document's list, and that of a text, where the model ignores merges, at the first token with it. -/
theorem fromJson_tables (doc : Json) : Ends (fromJson doc) fun t =>
    ∃ model, doc.get "model" = some model ∧
      (∀ a b, (∃ i, find t.merges a b = some i) ∧
        t.merge a b = if a = NONE then none else listed (idsOf doc model) (mergesOf model) a b) ∧
      ∀ text, t.word text = some (if model.boolAt "ignore_merges" = some true then firstWord t doc text else none) := by
  unfold fromJson
  split
  · next model hmodel =>
    obtain ⟨hmodel, -⟩ := Option.filter_eq_some_iff.mp hmodel
    refine (ends_except _).bind fun n _ => (ends_except _).bind fun pre _ => ?_
    refine (build_merges _ _ _ _ _ _).bind fun t ht => ?_
    dsimp only
    split_ifs with hignore
    · obtain ⟨table, htable, hword⟩ := indexWords_word { t with frame := frame (doc.get "post_processor") }
        ((addedTokens (doc.get "added_tokens")).2.1 ++ (addedTokens (doc.get "added_tokens")).2.2)
      rw [htable]
      refine ends_some ⟨model, hmodel, ht.2, fun text => ?_⟩
      rw [if_pos hignore, hword text]
      rfl
    · refine ends_pure ⟨model, hmodel, ht.2, fun text => ?_⟩
      rw [if_neg hignore]
      exact if_pos ht.1
  · exact ends_error _

end Chatlink.Token
