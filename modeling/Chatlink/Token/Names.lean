import Chatlink.Token.Encoding

/-!
# What the tables say of names

A tokenizer is built by adding the names of a vocabulary one after the other. What is found in its tables of characters
and bytes is a name that is that character or byte, and what a token decodes to is what its name spells.
-/
namespace Chatlink.Token

/-- The bytes that a name stands for. -/
def spell (flags : UInt32) (special : Bool) (name : String) : List UInt8 :=
  if has flags BYTE_LEVEL && !special then (name.toList.mapM byteOf).getD (utf8 name)
  else
    match (byteName name).filter fun _ => has flags BYTES && !special with
    | some b => [b]
    | none => utf8 (if has flags META && !special then name.map fun c => if c = '▁' then ' ' else c else name)

namespace Tokenizer

/-- What the tokens spell, in order. -/
def spellings (t : Tokenizer) (names : List String) : List (List UInt8) :=
  names.zipIdx.map fun (name, id) => spell t.flags (t.isSpecial (UInt32.ofNat id)) name

/-- The offsets of some texts, one after the other. -/
def offsetsOf (texts : List (List UInt8)) : List UInt32 :=
  (List.range (texts.length + 1)).map fun k => UInt32.ofNat (texts.take k).flatten.length

/-- A name of a byte. -/
def NameOfByte (flags : UInt32) (name : String) (b : UInt8) : Prop :=
  if has flags BYTE_LEVEL then name.toList.mapM byteOf = some [b] else byteName name = some b ∧ has flags BYTES

/-- The tables hold the names. -/
structure Named (t : Tokenizer) (names : List String) : Prop where
  text : t.text = (t.spellings names).flatten
  offsets : t.offsets = offsetsOf (t.spellings names)
  rare : ∃ ps : List (UInt32 × UInt32), t.rare = ps.flatMap fun p => [p.1, p.2]
  char : ∀ c, t.charId c ≠ NONE →
    ∃ name, names[(t.charId c).toNat]? = some name ∧ name.toList = [c] ∧ t.isSpecial (t.charId c) = false
  byte : ∀ b, t.byteId b ≠ NONE →
    ∃ name, names[(t.byteId b).toNat]? = some name ∧ NameOfByte t.flags name b ∧ t.isSpecial (t.byteId b) = false

section

variable {t : Tokenizer} {names : List String} {id : UInt32} {name : String}

theorem spellings_append (t : Tokenizer) (names : List String) (name : String) :
    t.spellings (names ++ [name]) = t.spellings names ++ [spell t.flags (t.isSpecial (UInt32.ofNat names.length)) name] := by
  rw [spellings, List.zipIdx_append, List.map_append, spellings]
  simp

theorem offsetsOf_append (texts : List (List UInt8)) (text : List UInt8) :
    offsetsOf (texts ++ [text]) = offsetsOf texts ++ [UInt32.ofNat (texts.flatten ++ text).length] := by
  rw [offsetsOf, List.length_append, List.length_singleton, List.range_succ, List.map_append, offsetsOf]
  congr 1
  · refine List.map_congr_left fun k hk => ?_
    rw [List.take_append_of_le_length (by rw [List.mem_range] at hk; omega)]
  · rw [List.map_singleton, List.take_of_length_le (by rw [List.length_append, List.length_singleton]), List.flatten_append]
    simp

theorem add_byteToken (h : (has t.flags BYTE_LEVEL && !t.isSpecial id) = true) (name : String) :
    t.add id name = t.addByteToken id name := if_pos h

theorem add_token (h : (has t.flags BYTE_LEVEL && !t.isSpecial id) = false) (name : String) :
    t.add id name = if t.isSpecial id then t.addPiece id name else (t.addPiece id name).addChar id name :=
  if_neg (Bool.eq_false_iff.mp h)

/-- A token is added with its text, and perhaps as that of a byte. -/
theorem addByteToken_cases (t : Tokenizer) (id : UInt32) (name : String) :
    (∃ b, name.toList.mapM byteOf = some [b] ∧ t.addByteToken id name = { t with bytes := t.bytes.set b.toNat id }.addText [b]) ∨
      t.addByteToken id name = t.addText ((name.toList.mapM byteOf).getD (utf8 name)) := by
  unfold addByteToken
  split
  · next b h => exact .inl ⟨b, h, rfl⟩
  · next decoded _ h => exact .inr (by rw [h]; rfl)
  · next h => exact .inr (by rw [h]; rfl)

theorem addPiece_cases (t : Tokenizer) (id : UInt32) (name : String) :
    (∃ b, byteName name = some b ∧ has t.flags BYTES ∧ t.isSpecial id = false ∧
      t.addPiece id name = { t with bytes := t.bytes.set b.toNat id }.addText [b]) ∨
    ((byteName name).filter fun _ => has t.flags BYTES && !t.isSpecial id) = none ∧
      t.addPiece id name =
        t.addText (utf8 (if has t.flags META && !t.isSpecial id then name.map fun c => if c = '▁' then ' ' else c else name)) := by
  unfold addPiece
  dsimp only
  split
  · next b h =>
    obtain ⟨hname, hflag⟩ := Option.filter_eq_some_iff.mp h
    rw [Bool.and_eq_true, Bool.not_eq_true'] at hflag
    exact .inl ⟨b, hname, hflag.1, hflag.2, rfl⟩
  · next h => exact .inr ⟨h, rfl⟩

theorem addChar_text (t : Tokenizer) (id : UInt32) (name : String) :
    (t.addChar id name).text = t.text ∧ (t.addChar id name).offsets = t.offsets ∧ (t.addChar id name).bytes = t.bytes := by
  unfold addChar
  split
  · split_ifs <;> exact ⟨rfl, rfl, rfl⟩
  · exact ⟨rfl, rfl, rfl⟩

theorem addPiece_text (h : (has t.flags BYTE_LEVEL && !t.isSpecial id) = false) (name : String) :
    (t.addPiece id name).text = t.text ++ spell t.flags (t.isSpecial id) name ∧
      (t.addPiece id name).offsets = t.offsets ++ [UInt32.ofNat (t.text ++ spell t.flags (t.isSpecial id) name).length] := by
  rw [spell, if_neg (Bool.eq_false_iff.mp h)]
  obtain ⟨b, hname, hflag, hspecial, hadd⟩ | ⟨hname, hadd⟩ := addPiece_cases t id name
  · rw [hadd, hname, hflag, hspecial]
    exact ⟨rfl, rfl⟩
  · rw [hadd, hname]
    exact ⟨rfl, rfl⟩

/-- What adding a token does to the text. -/
theorem add_text (t : Tokenizer) (id : UInt32) (name : String) :
    (t.add id name).text = t.text ++ spell t.flags (t.isSpecial id) name ∧
      (t.add id name).offsets = t.offsets ++ [UInt32.ofNat (t.text ++ spell t.flags (t.isSpecial id) name).length] := by
  cases h : has t.flags BYTE_LEVEL && !t.isSpecial id with
  | true =>
    rw [add_byteToken h, spell, if_pos h]
    obtain ⟨b, hname, hadd⟩ | hadd := addByteToken_cases t id name
    · rw [hadd, hname]
      exact ⟨rfl, rfl⟩
    · rw [hadd]
      exact ⟨rfl, rfl⟩
  | false =>
    rw [add_token h]
    obtain ⟨htext, hoffsets⟩ := addPiece_text h name
    split_ifs with hspecial
    · exact ⟨htext, hoffsets⟩
    · obtain ⟨htext', hoffsets', -⟩ := addChar_text (t.addPiece id name) id name
      exact ⟨htext'.trans htext, hoffsets'.trans hoffsets⟩

/-- What adding a token does to the table of bytes. -/
theorem byteId_add (t : Tokenizer) (id : UInt32) (name : String) (b : UInt8) :
    (t.add id name).byteId b = t.byteId b ∨
      (t.add id name).byteId b = id ∧ NameOfByte t.flags name b ∧ t.isSpecial id = false := by
  have hset : ∀ x : UInt8, ∀ text : List UInt8, ({ t with bytes := t.bytes.set x.toNat id }.addText text).byteId b = t.byteId b ∨
      ({ t with bytes := t.bytes.set x.toNat id }.addText text).byteId b = id ∧ x = b := by
    intro x text
    change (t.bytes.set x.toNat id).getD b.toNat NONE = _ ∨ (t.bytes.set x.toNat id).getD b.toNat NONE = _ ∧ _
    by_cases hx : x = b
    · subst hx
      by_cases hlt : x.toNat < t.bytes.length
      · right
        simp [List.getD, List.getElem?_set_self hlt]
      · left
        rw [List.set_eq_of_length_le (Nat.not_lt.mp hlt)]
        rfl
    · left
      have hne : x.toNat ≠ b.toNat := fun h => hx (UInt8.toNat_inj.mp h)
      rw [List.getD, List.getElem?_set_ne hne]
      rfl
  cases h : has t.flags BYTE_LEVEL && !t.isSpecial id with
  | true =>
    obtain ⟨hlevel, hspecial⟩ := Bool.and_eq_true_iff.mp h
    rw [Bool.not_eq_true'] at hspecial
    rw [add_byteToken h]
    obtain ⟨x, hname, hadd⟩ | hadd := addByteToken_cases t id name
    · rw [hadd]
      obtain hold | ⟨hnew, rfl⟩ := hset x [x]
      · exact .inl hold
      · exact .inr ⟨hnew, by rw [NameOfByte, if_pos hlevel]; exact hname, hspecial⟩
    · rw [hadd]
      exact .inl rfl
  | false =>
    have hpiece : (t.addPiece id name).byteId b = t.byteId b ∨
        (t.addPiece id name).byteId b = id ∧ NameOfByte t.flags name b ∧ t.isSpecial id = false := by
      obtain ⟨x, hname, hflag, hspecial, hadd⟩ | ⟨-, hadd⟩ := addPiece_cases t id name
      · rw [hadd]
        obtain hold | ⟨hnew, rfl⟩ := hset x [x]
        · exact .inl hold
        · have hlevel : ¬has t.flags BYTE_LEVEL = true := by
            rw [hspecial] at h
            simpa using h
          exact .inr ⟨hnew, by rw [NameOfByte, if_neg hlevel]; exact ⟨hname, hflag⟩, hspecial⟩
      · rw [hadd]
        exact .inl rfl
    rw [add_token h]
    split_ifs with hspecial
    · exact hpiece
    · rw [byteId, (addChar_text (t.addPiece id name) id name).2.2]
      exact hpiece

theorem pairsOf_flatMap (ps : List (UInt32 × UInt32)) : pairsOf (ps.flatMap fun p => [p.1, p.2]) = ps := by
  induction ps with
  | nil => rfl
  | cons p ps ih => exact congrArg (p :: ·) ih

theorem charId_congr {t t' : Tokenizer} (hchars : t'.chars = t.chars) (hrare : t'.rare = t.rare) (c : Char) :
    t'.charId c = t.charId c := by
  rw [charId, charId, hchars, hrare]

theorem addPiece_chars (t : Tokenizer) (id : UInt32) (name : String) :
    (t.addPiece id name).chars = t.chars ∧ (t.addPiece id name).rare = t.rare := by
  obtain ⟨b, -, -, -, hadd⟩ | ⟨-, hadd⟩ := addPiece_cases t id name
  · rw [hadd]
    exact ⟨rfl, rfl⟩
  · rw [hadd]
    exact ⟨rfl, rfl⟩

/-- What a token of one character does to the tables of characters. -/
theorem charId_addChar {ps : List (UInt32 × UInt32)} (hrare : t.rare = ps.flatMap fun p => [p.1, p.2]) (id : UInt32)
    (name : String) :
    (∃ ps : List (UInt32 × UInt32), (t.addChar id name).rare = ps.flatMap fun p => [p.1, p.2]) ∧
      ∀ c, (t.addChar id name).charId c = t.charId c ∨ (t.addChar id name).charId c = id ∧ name.toList = [c] := by
  unfold addChar
  split
  · next x hname =>
    split_ifs with hdirect
    · refine ⟨⟨ps, hrare⟩, fun c => ?_⟩
      by_cases hx : x = c
      · subst hx
        by_cases hlt : x.toNat < t.chars.length
        · refine .inr ⟨?_, hname⟩
          rw [charId, List.getElem?_set_self hlt]
          rfl
        · left
          rw [charId, List.set_eq_of_length_le (Nat.not_lt.mp hlt)]
          rfl
      · left
        have hne : x.toNat ≠ c.toNat := fun h => hx (Char.toNat_inj.mp h)
        rw [charId, List.getElem?_set_ne hne]
        rfl
    · refine ⟨⟨ps ++ [(x.val, id)], by rw [hrare, List.flatMap_append]; rfl⟩, fun c => ?_⟩
      have hnew : pairsOf (t.rare ++ [x.val, id]) = ps ++ [(x.val, id)] := by
        rw [← pairsOf_flatMap (ps ++ [(x.val, id)]), List.flatMap_append, hrare]
        rfl
      rw [charId, charId, hrare, pairsOf_flatMap, ← hrare]
      dsimp only
      rw [hnew]
      cases hget : t.chars[c.toNat]? with
      | some d => exact .inl rfl
      | none =>
        rw [List.find?_append]
        cases hfind : ps.find? fun p => p.1 = c.val with
        | some p => exact .inl rfl
        | none =>
          by_cases hx : x = c
          · subst hx
            right
            simp [hname]
          · left
            have hne : ¬x.val = c.val := fun h => hx (Char.ext h)
            simp [hne]
  · exact ⟨⟨ps, hrare⟩, fun c => .inl rfl⟩

theorem charId_add {ps : List (UInt32 × UInt32)} (hrare : t.rare = ps.flatMap fun p => [p.1, p.2]) (id : UInt32) (name : String) :
    (∃ ps : List (UInt32 × UInt32), (t.add id name).rare = ps.flatMap fun p => [p.1, p.2]) ∧
      ∀ c, (t.add id name).charId c = t.charId c ∨
        (t.add id name).charId c = id ∧ name.toList = [c] ∧ t.isSpecial id = false := by
  cases h : has t.flags BYTE_LEVEL && !t.isSpecial id with
  | true =>
    rw [add_byteToken h]
    obtain ⟨b, -, hadd⟩ | hadd := addByteToken_cases t id name
    · rw [hadd]
      exact ⟨⟨ps, hrare⟩, fun c => .inl rfl⟩
    · rw [hadd]
      exact ⟨⟨ps, hrare⟩, fun c => .inl rfl⟩
  | false =>
    obtain ⟨hchars, hrare'⟩ := addPiece_chars t id name
    rw [add_token h]
    split_ifs with hspecial
    · exact ⟨⟨ps, hrare'.trans hrare⟩, fun c => .inl (charId_congr hchars hrare' c)⟩
    · obtain ⟨hflat, hchar⟩ := charId_addChar (hrare'.trans hrare) id name
      refine ⟨hflat, fun c => ?_⟩
      obtain hold | ⟨hnew, hname⟩ := hchar c
      · exact .inl (hold.trans (charId_congr hchars hrare' c))
      · exact .inr ⟨hnew, hname, Bool.eq_false_iff.mpr hspecial⟩

theorem isSpecial_congr {t t' : Tokenizer} (h : Kept t t') (id : UInt32) : t'.isSpecial id = t.isSpecial id := by
  rw [isSpecial, isSpecial, h.special]

theorem spellings_congr {t t' : Tokenizer} (h : Kept t t') (names : List String) : t'.spellings names = t.spellings names := by
  rw [spellings, spellings, h.flags]
  exact List.map_congr_left fun p _ => congrArg (fun s => spell t.flags s p.1) (isSpecial_congr h _)

/-- One more name. -/
theorem Named.add (h : t.Named names) (hlen : names.length < 2 ^ 32) (name : String) :
    (t.add (UInt32.ofNat names.length) name).Named (names ++ [name]) := by
  have hkept := kept_add t (UInt32.ofNat names.length) name
  have hid : (UInt32.ofNat names.length).toNat = names.length := by
    rw [UInt32.toNat_ofNat']
    exact Nat.mod_eq_of_lt hlen
  have hold : ∀ {k : ℕ} {s : String}, names[k]? = some s → (names ++ [name])[k]? = some s := fun hk =>
    (List.getElem?_append_left (List.getElem?_eq_some_iff.mp hk).1).trans hk
  have hnew : (names ++ [name])[(UInt32.ofNat names.length).toNat]? = some name := by
    rw [hid, List.getElem?_append_right le_rfl, Nat.sub_self]
    rfl
  obtain ⟨htext, hoffsets⟩ := add_text t (UInt32.ofNat names.length) name
  obtain ⟨ps, hps⟩ := h.rare
  obtain ⟨hrare, hchar⟩ := charId_add hps (UInt32.ofNat names.length) name
  refine ⟨?_, ?_, hrare, fun c hc => ?_, fun b hb => ?_⟩
  · rw [spellings_congr hkept, spellings_append, List.flatten_append, htext, h.text, List.flatten_singleton]
  · rw [spellings_congr hkept, spellings_append, offsetsOf_append, hoffsets, h.offsets, h.text]
  · rw [isSpecial_congr hkept]
    obtain hsame | ⟨hc', hname, hspecial⟩ := hchar c
    · rw [hsame] at hc ⊢
      obtain ⟨s, hs, hname, hspecial⟩ := h.char c hc
      exact ⟨s, hold hs, hname, hspecial⟩
    · rw [hc']
      exact ⟨name, hnew, hname, hspecial⟩
  · rw [isSpecial_congr hkept, hkept.flags]
    obtain hsame | ⟨hb', hname, hspecial⟩ := byteId_add t (UInt32.ofNat names.length) name b
    · rw [hsame] at hb ⊢
      obtain ⟨s, hs, hname, hspecial⟩ := h.byte b hb
      exact ⟨s, hold hs, hname, hspecial⟩
    · rw [hb']
      exact ⟨name, hnew, hname, hspecial⟩

theorem named_empty (flags unk : UInt32) (special : List UInt32) (merges : ℕ) : (empty flags unk special merges).Named [] := by
  refine ⟨rfl, rfl, ⟨[], rfl⟩, fun c hc => ?_, fun b hb => ?_⟩
  · refine absurd ?_ hc
    rw [charId, empty]
    dsimp only
    rw [List.getElem?_replicate]
    split_ifs <;> rfl
  · refine absurd ?_ hb
    rw [byteId, empty, List.getD]
    dsimp only
    rw [List.getElem?_replicate]
    split_ifs <;> rfl

/-- All names. -/
theorem named_addAll {t : Tokenizer} {done : List String} (h : t.Named done) (names : List String)
    (hlen : (done ++ names).length ≤ 2 ^ 32) :
    ((names.zipIdx done.length).foldl (fun t (name, id) => t.add (UInt32.ofNat id) name) t).Named (done ++ names) := by
  induction names generalizing t done with
  | nil => rwa [List.append_nil]
  | cons name names ih =>
    rw [List.length_append, List.length_cons] at hlen
    have hnext := ih (h.add (by omega) name) (by simp only [List.length_append, List.length_singleton]; omega)
    rw [List.append_assoc, List.length_append] at hnext
    exact hnext

end

/-! ## The names of a document -/

section

variable {vocab : List (String × UInt32)} {s : String} {id : UInt32}

theorem foldl_max_le {l : List ℕ} {m b : ℕ} (hm : m ≤ b) (h : ∀ n ∈ l, n ≤ b) : l.foldl max m ≤ b := by
  induction l generalizing m with
  | nil => exact hm
  | cons n l ih =>
    exact ih (max_le hm (h n List.mem_cons_self)) fun k hk => h k (List.mem_cons_of_mem n hk)

theorem le_foldl_max {l : List ℕ} {m : ℕ} : m ≤ l.foldl max m ∧ ∀ n ∈ l, n ≤ l.foldl max m := by
  induction l generalizing m with
  | nil => exact ⟨le_rfl, fun n hn => absurd hn List.not_mem_nil⟩
  | cons k l ih =>
    obtain ⟨hk, hl⟩ := ih (m := max m k)
    exact ⟨(le_max_left m k).trans hk, List.forall_mem_cons.mpr ⟨(le_max_right m k).trans hk, hl⟩⟩

theorem length_namesOf_le (vocab : List (String × UInt32)) : (namesOf vocab).length ≤ 2 ^ 32 := by
  rw [length_namesOf]
  refine foldl_max_le (Nat.zero_le _) fun n hn => ?_
  obtain ⟨v, -, rfl⟩ := List.mem_map.mp hn
  exact v.2.toNat_lt

/-- No two names share an ID. -/
def Distinct (vocab : List (String × UInt32)) : Prop := ∀ v ∈ vocab, ∀ w ∈ vocab, v.2 = w.2 → v.1 = w.1

instance (vocab : List (String × UInt32)) : Decidable (Distinct vocab) := List.decidableBAll _ vocab

theorem getElem?_setNames {vocab : List (String × UInt32)} {names : List String} (h : Distinct vocab) (hmem : (s, id) ∈ vocab)
    (hlt : id.toNat < names.length) :
    (vocab.foldl (fun names v => names.set v.2.toNat v.1) names)[id.toNat]? = some s := by
  induction vocab using List.reverseRecOn with
  | nil => exact absurd hmem List.not_mem_nil
  | append_singleton vocab v ih =>
    rw [List.foldl_append, List.foldl_cons, List.foldl_nil]
    by_cases hv : v.2 = id
    · have hs : v.1 = s := h v (by simp) (s, id) hmem hv
      rw [hv, List.getElem?_set_self (by rwa [length_setNames]), hs]
    · have hne : v.2.toNat ≠ id.toNat := fun heq => hv (UInt32.toNat_inj.mp heq)
      rw [List.getElem?_set_ne hne]
      refine ih (fun v hv w hw => h v (by simp [hv]) w (by simp [hw])) ?_
      obtain hmem | hmem := List.mem_append.mp hmem
      · exact hmem
      · rw [List.mem_singleton] at hmem
        exact absurd (by rw [← hmem]) hv

/-- The name of an ID. -/
theorem getElem?_namesOf (h : Distinct vocab) (hmem : (s, id) ∈ vocab) : (namesOf vocab)[id.toNat]? = some s := by
  refine getElem?_setNames h hmem ?_
  rw [List.length_replicate]
  exact (le_foldl_max (m := 0)).2 _ (List.mem_map_of_mem hmem)

theorem mem_of_lookup (h : vocab.reverse.lookup s = some id) : (s, id) ∈ vocab := by
  obtain ⟨l, l', hl, -⟩ := List.lookup_eq_some_iff.mp h
  rw [← List.mem_reverse, hl]
  exact List.mem_append_right l List.mem_cons_self

/-- The ID of a name that has one. -/
theorem name_of_lookup (h : Distinct vocab) (hs : vocab.reverse.lookup s = some id) : (namesOf vocab)[id.toNat]? = some s :=
  getElem?_namesOf h (mem_of_lookup hs)

end

/-! ## What a tokenizer is built from -/

/-- The tables of a tokenizer, and what they were filled with. -/
structure Built (t : Tokenizer) (vocab : List (String × UInt32)) (merges : List (String × String))
    (special plain : List UInt32) : Prop where
  named : t.Named (namesOf vocab)
  joined : ∀ k name, (namesOf vocab)[k]? = some name → t.isSpecial (UInt32.ofNat k) = false →
    ∀ pre c post, name.toList = pre ++ c :: '▁' :: post → c ≠ '▁' → t.joins.contains c.val
  sorted : t.special = special.mergeSort (· ≤ ·)
  added : t.added = matched (namesOf vocab) plain
  merge : ∀ a b, t.merge a b = if a = NONE then none else listed (fun s => vocab.reverse.lookup s) merges a b
  word : ∀ text, ∃ r, t.word text = some r ∧ ∀ id ∈ r, t.tokenBytes id = text ∧ id ∉ special ++ plain

theorem mem_destutter' {α : Type} [DecidableEq α] {a x : α} {l : List α} (h : x ∈ l) : x ∈ l.destutter' (· ≠ ·) a := by
  induction l generalizing a with
  | nil => exact absurd h List.not_mem_nil
  | cons b l ih =>
    rw [List.destutter'_cons]
    obtain rfl | h := List.mem_cons.mp h
    · split_ifs with hab
      · exact List.mem_cons_of_mem a (List.mem_destutter' l _ _)
      · rw [Decidable.not_not.mp hab]
        exact List.mem_destutter' l _ _
    · split_ifs
      · exact List.mem_cons_of_mem a (ih h)
      · exact ih h

/-- Nothing is lost with its repetitions. -/
theorem mem_destutter {α : Type} [DecidableEq α] {x : α} {l : List α} (h : x ∈ l) : x ∈ l.destutter (· ≠ ·) := by
  cases l with
  | nil => exact absurd h List.not_mem_nil
  | cons a l =>
    obtain rfl | h := List.mem_cons.mp h
    · exact List.mem_destutter' l _ _
    · exact mem_destutter' h

theorem mem_joinsOf {t : Tokenizer} {names : List String} {k : ℕ} {name : String} (hname : names[k]? = some name)
    (hspecial : t.isSpecial (UInt32.ofNat k) = false) {pre post : List Char} {c : Char}
    (hlist : name.toList = pre ++ c :: '▁' :: post) (hc : c ≠ '▁') : (t.joinsOf names).contains c.val := by
  have hpair : (c, '▁') ∈ name.toList.zip (name.toList.drop 1) := by
    rw [hlist]
    refine List.mem_iff_getElem?.mpr ⟨pre.length, ?_⟩
    rw [List.getElem?_zip_eq_some, List.getElem?_drop]
    refine ⟨by simp, ?_⟩
    rw [List.getElem?_append_right (by omega), Nat.add_sub_cancel]
    rfl
  rw [List.contains_iff_mem, joinsOf]
  dsimp only
  refine mem_destutter (List.mem_mergeSort.mpr (List.mem_map.mpr ⟨(c, '▁'), List.mem_filter.mpr ⟨?_, by simpa using hc⟩, rfl⟩))
  refine List.mem_flatMap.mpr ⟨(name, k), List.mem_filter.mpr ⟨?_, ?_⟩, hpair⟩
  · exact List.mem_zipIdx_iff_getElem?.mpr hname
  · rw [hspecial]
    rfl

theorem build_named {vocab : List (String × UInt32)} {merges : List (String × String)} {special added : List UInt32}
    {unk : Option String} {flags : UInt32} {t : Tokenizer} (h : build vocab merges special added unk flags = some (.ok t)) :
    t.Named (namesOf vocab) ∧ t.joins = t.joinsOf (namesOf vocab) ∧ t.special = special.mergeSort (· ≤ ·) ∧
      t.added = matched (namesOf vocab) added ∧ t.flags = flags := by
  unfold build at h
  obtain ⟨table, -, h⟩ := ok_of_bind h
  cases h
  have hkept := kept_addAll (namesOf vocab).zipIdx (empty flags ((unk >>= fun s => vocab.reverse.lookup s).getD NONE)
    (special.mergeSort (· ≤ ·)) merges.length)
  obtain ⟨htext, hoffsets, hrare, hchar, hbyte⟩ := named_addAll (named_empty flags ((unk >>= fun s => vocab.reverse.lookup s).getD NONE)
    (special.mergeSort (· ≤ ·)) merges.length) (namesOf vocab) (length_namesOf_le vocab)
  exact ⟨⟨htext, hoffsets, hrare, hchar, hbyte⟩, rfl, hkept.special, rfl, hkept.flags⟩

theorem ok_of_liftM {α : Type} {e : Except Error α} {a : α} (h : (liftM e : Building α) = some (.ok a)) : e = .ok a := by
  cases e with
  | error e => cases h
  | ok b =>
    cases h
    rfl

/-- What a document's tokenizer is built from, and with which flags. -/
theorem fromJson_build {doc : Json} {t : Tokenizer} (h : fromJson doc = some (.ok t)) :
    ∃ model flags t₀ words, doc.get "model" = some model ∧
      (∃ pre spaced nfc fallback, preTokenizer (doc.get "pre_tokenizer") spaced = .ok pre ∧
        flags = pre ||| flagIf nfc NFC ||| flagIf spaced META ||| flagIf fallback BYTES) ∧
      build (vocabulary doc model) (mergesOf model) (addedTokens (doc.get "added_tokens")).2.1
        (addedTokens (doc.get "added_tokens")).2.2 (model.strAt "unk_token") flags = some (.ok t₀) ∧
      t = { t₀ with frame := Token.frame (doc.get "post_processor"), words := words } := by
  unfold fromJson at h
  split at h
  · next model hmodel =>
    obtain ⟨⟨spaced, nfc⟩, -, h⟩ := ok_of_bind h
    obtain ⟨pre, hpre, h⟩ := ok_of_bind h
    have hflags := ok_of_liftM hpre
    dsimp only at h
    obtain ⟨t₀, hbuild, h⟩ := ok_of_bind h
    split_ifs at h
    · obtain ⟨words, rfl⟩ := indexWords_frame (of_lift h)
      exact ⟨model, _, t₀, words, (Option.filter_eq_some_iff.mp hmodel).1, ⟨pre, spaced, nfc, _, hflags, rfl⟩, hbuild, rfl⟩
    · cases h
      exact ⟨model, _, t₀, t₀.words, (Option.filter_eq_some_iff.mp hmodel).1, ⟨pre, spaced, nfc, _, hflags, rfl⟩, hbuild, rfl⟩
  · cases h

theorem built_of_fromJson {doc model : Json} {t : Tokenizer} (h : fromJson doc = some (.ok t)) (hmodel : doc.get "model" = some model) :
    Built t (vocabulary doc model) (mergesOf model) (addedTokens (doc.get "added_tokens")).2.1
      (addedTokens (doc.get "added_tokens")).2.2 := by
  obtain ⟨model₁, flags, t₀, words, hmodel₁, -, hbuild, ht⟩ := fromJson_build h
  obtain ⟨r, hr, htables⟩ := fromJson_tables doc
  rw [h] at hr
  obtain ⟨model₂, hmodel₂, hmerge, hword⟩ := htables t (Option.some.inj hr).symm
  obtain rfl : model = model₁ := Option.some.inj (hmodel.symm.trans hmodel₁)
  obtain rfl : model = model₂ := Option.some.inj (hmodel.symm.trans hmodel₂)
  obtain ⟨⟨htext, hoffsets, hrare, hchar, hbyte⟩, hjoins, hspecial, hadded, -⟩ := build_named hbuild
  subst ht
  refine ⟨⟨htext, hoffsets, hrare, hchar, hbyte⟩, ?_, hspecial, hadded, fun a b => (hmerge a b).2, fun text => ?_⟩
  · intro k name hname hk pre c post hlist hc
    exact hjoins ▸ mem_joinsOf hname hk hlist hc
  · refine ⟨_, hword text, fun id hid => ?_⟩
    split_ifs at hid with hignore
    · have hfound := List.find?_some hid
      simp only [Bool.and_eq_true, Bool.not_eq_true', decide_eq_true_eq] at hfound
      exact ⟨hfound.2, by simpa using hfound.1⟩
    · cases hid

/-! ## Merges and names -/

/-- A name of a token that stands for its characters, or where they are bytes, for these. -/
def Plain (t : Tokenizer) (vocab : List (String × UInt32)) (s : String) : Prop :=
  ∀ id, vocab.reverse.lookup s = some id → t.isSpecial id = false ∧ id ≠ t.unk ∧
    if has t.flags BYTE_LEVEL then (s.toList.mapM byteOf).isSome = true else (has t.flags BYTES = true → byteName s = none)

/-- Merges join plain tokens, and make plain ones. -/
def PlainMerges (t : Tokenizer) (vocab : List (String × UInt32)) (merges : List (String × String)) : Prop :=
  ∀ m ∈ merges, t.Plain vocab m.1 ∧ t.Plain vocab m.2 ∧ t.Plain vocab (m.1 ++ m.2)

instance (t : Tokenizer) (vocab : List (String × UInt32)) (s : String) : Decidable (t.Plain vocab s) :=
  Option.decidableForallMem (vocab.reverse.lookup s)

instance (t : Tokenizer) (vocab : List (String × UInt32)) (merges : List (String × String)) :
    Decidable (t.PlainMerges vocab merges) := List.decidableBAll _ merges

section

variable {t : Tokenizer} {vocab : List (String × UInt32)} {merges : List (String × String)} {special plain : List UInt32}

/-- A merge is one of the list. -/
theorem Built.usable_cases (h : Built t vocab merges special plain) {a b : UInt32} {m : ℕ × UInt32}
    (hm : usable t.merge a b = some m) :
    ∃ x y, (x, y) ∈ merges ∧ vocab.reverse.lookup x = some a ∧ vocab.reverse.lookup y = some b ∧
      vocab.reverse.lookup (x ++ y) = some m.2 := by
  obtain ⟨⟨rank, made⟩, hmerge, rfl⟩ := Option.map_eq_some_iff.mp hm
  obtain ⟨hmerge, -⟩ := Option.filter_eq_some_iff.mp hmerge
  rw [h.merge] at hmerge
  split_ifs at hmerge
  obtain ⟨⟨⟨x, y⟩, k⟩, hfind, hmerge⟩ := Option.bind_eq_some_iff.mp hmerge
  obtain ⟨id, hid, hmerge⟩ := Option.bind_eq_some_iff.mp hmerge
  cases hmerge
  have hboth := List.find?_some hfind
  simp only [decide_eq_true_eq] at hboth
  exact ⟨x, y, List.fst_mem_of_mem_zipIdx (List.mem_of_find?_eq_some hfind), hboth.1, hboth.2, hid⟩

theorem offsetsOf_drop {texts : List (List UInt8)} {k : ℕ} (hk : k < texts.length) :
    (offsetsOf texts).drop k = UInt32.ofNat (texts.take k).flatten.length ::
      UInt32.ofNat (texts.take (k + 1)).flatten.length :: (offsetsOf texts).drop (k + 2) := by
  have hlen : (offsetsOf texts).length = texts.length + 1 := by rw [offsetsOf, List.length_map, List.length_range]
  rw [List.drop_eq_getElem_cons (show k < (offsetsOf texts).length by omega),
    List.drop_eq_getElem_cons (show k + 1 < (offsetsOf texts).length by omega)]
  simp [offsetsOf]

/-- A text among others is what lies between its offsets. -/
theorem flatten_between {texts : List (List UInt8)} {k : ℕ} {text : List UInt8} (hk : texts[k]? = some text) :
    (texts.flatten.take (texts.take (k + 1)).flatten.length).drop (texts.take k).flatten.length = text := by
  have hsplit : texts.flatten = (texts.take (k + 1)).flatten ++ (texts.drop (k + 1)).flatten := by
    rw [← List.flatten_append, List.take_append_drop]
  rw [hsplit, List.take_left, List.take_add_one, hk, List.flatten_append, List.drop_left]
  exact List.append_nil text

/-- The text of a token whose name is known. -/
theorem Named.tokenBytes {names : List String} {id : UInt32} {name : String} (h : t.Named names) (hfits : t.Fits)
    (hname : names[id.toNat]? = some name) : t.tokenBytes id = spell t.flags (t.isSpecial id) name := by
  have hspell : (t.spellings names)[id.toNat]? = some (spell t.flags (t.isSpecial id) name) := by
    rw [spellings, List.getElem?_map, List.getElem?_zipIdx, hname, Option.map_some, Option.map_some, Nat.zero_add]
    dsimp only
    rw [UInt32.ofNat_toNat]
  have hlt : ∀ k, ((t.spellings names).take k).flatten.length < 2 ^ 32 := by
    intro k
    have hsplit : t.text = ((t.spellings names).take k).flatten ++ ((t.spellings names).drop k).flatten := by
      rw [← List.flatten_append, List.take_append_drop, h.text]
    have htext := hfits.1
    rw [hsplit, List.length_append] at htext
    omega
  have hnat : ∀ k, (UInt32.ofNat ((t.spellings names).take k).flatten.length).toNat =
      ((t.spellings names).take k).flatten.length := by
    intro k
    rw [UInt32.toNat_ofNat']
    exact Nat.mod_eq_of_lt (hlt k)
  rw [Tokenizer.tokenBytes, h.offsets, offsetsOf_drop (List.getElem?_eq_some_iff.mp hspell).1]
  dsimp only
  rw [hnat, hnat, h.text]
  exact flatten_between hspell

theorem tokenBytes_none (hfits : t.Fits) : t.tokenBytes NONE = [] := by
  have hoffsets := hfits.2 t.offsets (by simp)
  rw [Tokenizer.tokenBytes, List.drop_of_length_le]
  rw [show NONE.toNat = 2 ^ 32 - 1 from rfl]
  omega

end

end Tokenizer

end Chatlink.Token
