import Chatlink.Token.Names

/-!
# Cutting at spaces

A text is cut before a space where no token joins the character before to it. No merge crosses a cut: what is left of it ends
in that character, and what is right of it begins with the space. So the pieces, each merged on its own, are the whole
merged at once.
-/
namespace Chatlink.Token.Tokenizer

/-- Whether a character is encoded without the unknown token. -/
def Covered (t : Tokenizer) (c : Char) : Prop :=
  if has t.flags BYTE_LEVEL then ∀ b ∈ String.utf8EncodeChar c, t.byteId b ≠ NONE
  else t.charId (t.mark c) ≠ NONE ∨
    (has t.flags META → t.mark c ≠ '▁') ∧ has t.flags BYTES ∧ ∀ b ∈ String.utf8EncodeChar (t.mark c), t.byteId b ≠ NONE

instance (t : Tokenizer) (c : Char) : Decidable (t.Covered c) :=
  inferInstanceAs (Decidable (if has t.flags BYTE_LEVEL then ∀ b ∈ String.utf8EncodeChar c, t.byteId b ≠ NONE
    else t.charId (t.mark c) ≠ NONE ∨
      (has t.flags META → t.mark c ≠ '▁') ∧ has t.flags BYTES ∧ ∀ b ∈ String.utf8EncodeChar (t.mark c), t.byteId b ≠ NONE))

variable {t : Tokenizer} {ids : List UInt32} {c : Char}

/-! ## Symbols, one by one -/

theorem symbol_char (h : t.charId (t.mark c) ≠ NONE) (ids : List UInt32) : t.symbol ids c = ids ++ [t.charId (t.mark c)] := if_pos h

theorem symbol_bytes {l : List UInt32} (h : t.charId (t.mark c) = NONE) (hl : t.byteIds (t.mark c) = some l) (ids : List UInt32) :
    t.symbol ids c = ids ++ l := by
  rw [symbol, if_neg (by rw [h]; exact not_not.mpr rfl), hl]

theorem symbol_unknown (h : t.charId (t.mark c) = NONE) (hl : t.byteIds (t.mark c) = none) (ids : List UInt32) :
    t.symbol ids c = if ids.getLast? ≠ some t.unk ∧ t.unk ≠ NONE then ids ++ [t.unk] else ids := by
  rw [symbol, if_neg (by rw [h]; exact not_not.mpr rfl), hl]

theorem mapM_filter_some {f : UInt8 → UInt32} {p : UInt32 → Bool} {bs : List UInt8} {l : List UInt32}
    (h : (bs.mapM fun b => (some (f b)).filter p) = some l) : l = bs.map f ∧ ∀ b ∈ bs, p (f b) = true := by
  induction bs generalizing l with
  | nil =>
    cases h
    exact ⟨rfl, fun b hb => absurd hb List.not_mem_nil⟩
  | cons b bs ih =>
    rw [List.mapM_cons] at h
    obtain ⟨id, hid, h⟩ := Option.bind_eq_some_iff.mp h
    obtain ⟨ids, hids, h⟩ := Option.bind_eq_some_iff.mp h
    cases h
    obtain ⟨rfl, hall⟩ := ih hids
    obtain ⟨hb, hp⟩ := Option.filter_eq_some_iff.mp hid
    cases hb
    exact ⟨rfl, List.forall_mem_cons.mpr ⟨hp, hall⟩⟩

theorem byteIds_some {l : List UInt32} (h : t.byteIds c = some l) :
    l = (String.utf8EncodeChar c).map t.byteId ∧ has t.flags BYTES ∧ ∀ b ∈ String.utf8EncodeChar c, t.byteId b ≠ NONE := by
  obtain ⟨hl, hall⟩ := mapM_filter_some h
  obtain ⟨b, bs, hbs⟩ := List.exists_cons_of_ne_nil (Utf8.encode_ne_nil c)
  have hboth : ∀ b ∈ String.utf8EncodeChar c, t.byteId b ≠ NONE ∧ has t.flags BYTES := fun b hb => of_decide_eq_true (hall b hb)
  exact ⟨hl, (hboth b (hbs ▸ List.mem_cons_self)).2, fun b hb => (hboth b hb).1⟩

theorem mapM_filter_of {f : UInt8 → UInt32} {p : UInt32 → Bool} {bs : List UInt8} (h : ∀ b ∈ bs, p (f b) = true) :
    (bs.mapM fun b => (some (f b)).filter p) = some (bs.map f) := by
  induction bs with
  | nil => rfl
  | cons b bs ih =>
    obtain ⟨hb, hbs⟩ := List.forall_mem_cons.mp h
    rw [List.mapM_cons, ih hbs, Option.filter_some, if_pos hb]
    rfl

theorem byteIds_of (hbytes : has t.flags BYTES) (h : ∀ b ∈ String.utf8EncodeChar c, t.byteId b ≠ NONE) :
    t.byteIds c = some ((String.utf8EncodeChar c).map t.byteId) :=
  mapM_filter_of fun b hb => decide_eq_true ⟨h b hb, hbytes⟩

/-- A character adds at most four symbols. -/
theorem symbol_grows (t : Tokenizer) (ids : List UInt32) (c : Char) : ∃ more, t.symbol ids c = ids ++ more ∧ more.length ≤ 4 := by
  by_cases hchar : t.charId (t.mark c) ≠ NONE
  · exact ⟨_, symbol_char hchar ids, by simp⟩
  · rw [not_not] at hchar
    cases hbytes : t.byteIds (t.mark c) with
    | some l =>
      refine ⟨l, symbol_bytes hchar hbytes ids, ?_⟩
      rw [(byteIds_some hbytes).1, List.length_map, String.length_utf8EncodeChar]
      exact Char.utf8Size_le_four _
    | none =>
      rw [symbol_unknown hchar hbytes]
      split_ifs
      · exact ⟨[t.unk], rfl, by simp⟩
      · exact ⟨[], (List.append_nil ids).symm, by simp⟩

theorem foldl_symbol_grows (t : Tokenizer) (ids : List UInt32) (text : List Char) :
    ∃ more, text.foldl t.symbol ids = ids ++ more ∧ more.length ≤ 4 * text.length := by
  induction text generalizing ids with
  | nil => exact ⟨[], (List.append_nil ids).symm, by simp⟩
  | cons c text ih =>
    obtain ⟨first, hfirst, hlen⟩ := symbol_grows t ids c
    obtain ⟨more, hmore, hle⟩ := ih (ids ++ first)
    refine ⟨first ++ more, by rw [List.foldl_cons, hfirst, hmore, List.append_assoc], ?_⟩
    rw [List.length_append, List.length_cons]
    omega

theorem length_symbols_le (t : Tokenizer) (text : List Char) : (t.symbols text).length ≤ 4 * text.length := by
  obtain ⟨more, hmore, hle⟩ := foldl_symbol_grows t [] text
  rwa [symbols, hmore]

theorem head?_foldl_symbol (h : ids ≠ []) (text : List Char) : (text.foldl t.symbol ids).head? = ids.head? := by
  obtain ⟨more, hmore, -⟩ := foldl_symbol_grows t ids text
  rw [hmore, List.head?_append_of_ne_nil _ h]

theorem symbol_append {more : List UInt32} (h : more ≠ []) (ids : List UInt32) (c : Char) :
    t.symbol (ids ++ more) c = ids ++ t.symbol more c ∧ t.symbol more c ≠ [] := by
  by_cases hchar : t.charId (t.mark c) ≠ NONE
  · rw [symbol_char hchar, symbol_char hchar, List.append_assoc]
    exact ⟨rfl, by simp⟩
  · rw [not_not] at hchar
    cases hbytes : t.byteIds (t.mark c) with
    | some l =>
      rw [symbol_bytes hchar hbytes, symbol_bytes hchar hbytes, List.append_assoc]
      exact ⟨rfl, by simp [h]⟩
    | none =>
      have hlast : (ids ++ more).getLast? = more.getLast? := List.getLast?_append_of_ne_nil ids h
      rw [symbol_unknown hchar hbytes, symbol_unknown hchar hbytes, hlast]
      split_ifs
      · exact ⟨List.append_assoc _ _ _, by simp⟩
      · exact ⟨rfl, h⟩

theorem foldl_symbol_append {more : List UInt32} (h : more ≠ []) (ids : List UInt32) (text : List Char) :
    text.foldl t.symbol (ids ++ more) = ids ++ text.foldl t.symbol more := by
  induction text generalizing more with
  | nil => rfl
  | cons c text ih =>
    obtain ⟨happend, hne⟩ := symbol_append h ids c
    rw [List.foldl_cons, List.foldl_cons, happend, ih hne]

/-- Symbols after a character that has a token of its own do not depend on those before. -/
theorem symbols_append (hc : t.charId (t.mark c) ≠ NONE) (text rest : List Char) :
    t.symbols (text ++ c :: rest) = t.symbols text ++ t.symbols (c :: rest) := by
  rw [symbols, List.foldl_append, List.foldl_cons, symbol_char hc, foldl_symbol_append (by simp), symbols, symbols,
    List.foldl_cons, symbol_char hc, List.nil_append]

/-! ## What a cut parts -/

section

variable {vocab : List (String × UInt32)} {merges : List (String × String)} {special plain : List UInt32}

/-- What a token can be where the text so far ends in `last`. -/
def EndsIn (t : Tokenizer) (vocab : List (String × UInt32)) (last : Char) (id : UInt32) : Prop :=
  ∀ s, vocab.reverse.lookup s = some id → t.Plain vocab s → s.toList.getLast? = some last

/-- What a token can be where the text from here begins with `first`. -/
def BeginsWith (t : Tokenizer) (vocab : List (String × UInt32)) (first : Char) (id : UInt32) : Prop :=
  ∀ s, vocab.reverse.lookup s = some id → t.Plain vocab s → s.toList.head? = some first

/-- The names of an ID are one. -/
theorem eq_of_lookup (hids : Distinct vocab) {s s' : String} {id : UInt32} (h : vocab.reverse.lookup s = some id)
    (h' : vocab.reverse.lookup s' = some id) : s = s' :=
  hids _ (mem_of_lookup h) _ (mem_of_lookup h') rfl

theorem Built.charId_name (h : Built t vocab merges special plain) (hids : Distinct vocab) (hc : t.charId c ≠ NONE) {s : String}
    (hs : vocab.reverse.lookup s = some (t.charId c)) : s.toList = [c] := by
  obtain ⟨name, hname, hlist, -⟩ := h.named.char c hc
  rw [name_of_lookup hids hs] at hname
  rw [Option.some.inj hname, hlist]

variable (h : Built t vocab merges special plain) (hids : Distinct vocab) (hplain : t.PlainMerges vocab merges)

include h hids hplain

theorem Built.endsIn_merge (last : Char) (a b : UInt32) (m : ℕ × UInt32) (hm : usable t.merge a b = some m)
    (hb : t.EndsIn vocab last b) : t.EndsIn vocab last m.2 := by
  obtain ⟨x, y, hmem, -, hy, hxy⟩ := h.usable_cases hm
  intro s hs _
  obtain rfl := eq_of_lookup hids hs hxy
  rw [String.toList_append, List.getLast?_append, hb y hy (hplain _ hmem).2.1]
  rfl

theorem Built.beginsWith_merge (first : Char) (a b : UInt32) (m : ℕ × UInt32) (hm : usable t.merge a b = some m)
    (ha : t.BeginsWith vocab first a) : t.BeginsWith vocab first m.2 := by
  obtain ⟨x, y, hmem, hx, -, hxy⟩ := h.usable_cases hm
  intro s hs _
  obtain rfl := eq_of_lookup hids hs hxy
  rw [String.toList_append, List.head?_append, ha x hx (hplain _ hmem).1]
  rfl

/-- No merge crosses a cut. -/
theorem Built.not_merged {last c : Char} (hsplit : has t.flags SPLIT = false) (hcut : t.cuts last c = true) (a b : UInt32)
    (ha : t.EndsIn vocab last a) (hb : t.BeginsWith vocab '▁' b) : usable t.merge a b = none := by
  by_contra hsome
  obtain ⟨m, hm⟩ := Option.ne_none_iff_exists'.mp hsome
  obtain ⟨x, y, hmem, hx, hy, hxy⟩ := h.usable_cases hm
  have hlast := ha x hx (hplain _ hmem).1
  have hfirst := hb y hy (hplain _ hmem).2.1
  obtain ⟨pre, hpre⟩ := List.getLast?_eq_some_iff.mp hlast
  obtain ⟨post, hpost⟩ := List.head?_eq_some_iff.mp hfirst
  have hlist : (x ++ y).toList = pre ++ last :: '▁' :: post := by
    rw [String.toList_append, hpre, hpost, List.append_assoc]
    rfl
  rw [cuts, hsplit] at hcut
  simp only [Bool.and_eq_true, Bool.or_eq_true, Bool.false_or, Bool.not_eq_true', Bool.or_eq_false_iff] at hcut
  obtain ⟨-, ⟨-, hmark⟩, hjoins⟩ := hcut
  have hspecial := ((hplain _ hmem).2.2 _ hxy).1
  rw [← UInt32.ofNat_toNat (x := m.2)] at hspecial
  have hjoined := h.joined _ _ (name_of_lookup hids hxy) hspecial pre last post hlist (by simpa using hmark)
  rw [hjoins] at hjoined
  cases hjoined

end

theorem endsIn_unk (vocab : List (String × UInt32)) (last : Char) : t.EndsIn vocab last t.unk :=
  fun _ hs hp => absurd rfl (hp _ hs).2.1

section

variable {vocab : List (String × UInt32)} {merges : List (String × String)} {special plain : List UInt32}
  (h : Built t vocab merges special plain) (hids : Distinct vocab)

include h hids

/-- A byte token stands for no plain name. -/
theorem Built.endsIn_byte (hlevel : has t.flags BYTE_LEVEL = false) {b : UInt8} (hb : t.byteId b ≠ NONE)
    (last : Char) : t.EndsIn vocab last (t.byteId b) := by
  intro s hs hp
  obtain ⟨name, hname, hbyte, -⟩ := h.named.byte b hb
  rw [name_of_lookup hids hs] at hname
  obtain rfl := Option.some.inj hname
  rw [NameOfByte, if_neg (Bool.eq_false_iff.mp hlevel)] at hbyte
  have hnone := (hp _ hs).2.2
  rw [if_neg (Bool.eq_false_iff.mp hlevel)] at hnone
  rw [hnone hbyte.2] at hbyte
  cases hbyte.1

/-- The last symbol of a text. -/
theorem Built.endsIn_symbols (hlevel : has t.flags BYTE_LEVEL = false) {last : Char} (hlast : last ≠ ' ')
    (hknown : t.unk ≠ NONE ∨ t.Covered last) (text : List Char) :
    ∀ id ∈ (t.symbols (text ++ [last])).getLast?, t.EndsIn vocab last id := by
  have hmark : t.mark last = last := if_neg fun hboth => hlast hboth.1
  intro id hid
  rw [symbols, List.foldl_append, List.foldl_cons, List.foldl_nil] at hid
  by_cases hchar : t.charId (t.mark last) ≠ NONE
  · rw [symbol_char hchar, List.getLast?_append, List.getLast?_singleton] at hid
    obtain rfl : t.charId (t.mark last) = id := Option.some.inj hid
    intro s hs _
    rw [h.charId_name hids hchar hs, hmark]
    rfl
  · rw [not_not] at hchar
    cases hbytes : t.byteIds (t.mark last) with
    | some l =>
      obtain ⟨hl, -, hall⟩ := byteIds_some hbytes
      have hne : l ≠ [] := by
        rw [hl]
        simp
      rw [symbol_bytes hchar hbytes, List.getLast?_append_of_ne_nil _ hne] at hid
      have hmem := List.mem_of_getLast? hid
      rw [hl] at hmem
      obtain ⟨b, hb, rfl⟩ := List.mem_map.mp hmem
      exact h.endsIn_byte hids hlevel (hall b hb) last
    | none =>
      have hunk : t.unk ≠ NONE := by
        refine hknown.resolve_right fun hcovered => ?_
        rw [Covered, if_neg (Bool.eq_false_iff.mp hlevel)] at hcovered
        obtain hcovered | ⟨-, hflag, hall⟩ := hcovered
        · exact hcovered hchar
        · rw [byteIds_of hflag hall] at hbytes
          cases hbytes
      rw [symbol_unknown hchar hbytes] at hid
      split_ifs at hid with hcond
      · rw [List.getLast?_append, List.getLast?_singleton] at hid
        obtain rfl : t.unk = id := Option.some.inj hid
        exact endsIn_unk vocab last
      · have heq : (List.foldl t.symbol [] text).getLast? = some t.unk := by
          by_contra hne
          exact hcond ⟨hne, hunk⟩
        rw [heq] at hid
        obtain rfl : t.unk = id := Option.some.inj hid
        exact endsIn_unk vocab last

/-- The first symbol of a text that begins with a space. -/
theorem Built.beginsWith_symbols (hmark : t.mark c = '▁') (hc : t.charId '▁' ≠ NONE) (text : List Char) :
    ∀ id ∈ (t.symbols (c :: text)).head?, t.BeginsWith vocab '▁' id := by
  intro id hid
  rw [symbols, List.foldl_cons, symbol_char (by rwa [hmark]), head?_foldl_symbol (by simp), hmark] at hid
  obtain rfl : t.charId '▁' = id := Option.some.inj hid
  intro s hs _
  rw [h.charId_name hids hc hs]
  rfl

end

/-! ## The pieces -/

/-- What a text is merged into. -/
def merged (t : Tokenizer) (text : List Char) : List UInt32 :=
  (Bpe.bpe (usable t.merge) (t.symbols text)).filter fun id => id ≠ NONE

theorem mergeText_eq (hlevel : has t.flags BYTE_LEVEL = false) {text : List Char} (hlen : (t.symbols text).length < 2 ^ 32) :
    t.mergeText text = some (t.merged text) := by
  rw [mergeText, row, if_neg (Bool.eq_false_iff.mp hlevel)]
  exact mergeAll_eq t.merge hlen

section

variable {vocab : List (String × UInt32)} {merges : List (String × String)} {special plain : List UInt32}
  (h : Built t vocab merges special plain) (hids : Distinct vocab) (hplain : t.PlainMerges vocab merges)
  (hlevel : has t.flags BYTE_LEVEL = false) (hsplit : has t.flags SPLIT = false) (hc : t.charId '▁' ≠ NONE)

include h hids hplain hlevel hsplit hc

/-- What is merged on both sides of a cut is the whole merged. -/
theorem Built.merged_append {last : Char} (hcut : t.cuts last c = true) (hknown : t.unk ≠ NONE ∨ t.Covered last)
    (text rest : List Char) :
    t.merged (text ++ [last] ++ c :: rest) = t.merged (text ++ [last]) ++ t.merged (c :: rest) := by
  have hspace : t.mark c = '▁' ∧ last ≠ ' ' := by
    have hboth := hcut
    rw [cuts, hsplit] at hboth
    simp only [Bool.and_eq_true, Bool.or_eq_true, beq_iff_eq, Bool.false_or, Bool.not_eq_true', Bool.or_eq_false_iff,
      beq_eq_false_iff_ne, ne_eq] at hboth
    obtain ⟨⟨hspace, hmeta⟩, ⟨hlast, -⟩, -⟩ := hboth
    refine ⟨?_, hlast⟩
    obtain rfl | rfl := hspace
    · exact if_pos ⟨rfl, hmeta⟩
    · exact if_neg fun hboth => absurd hboth.1 (by decide)
  obtain ⟨hmark, hlast⟩ := hspace
  rw [merged, symbols_append (by rwa [hmark]), merged, merged, ← List.filter_append]
  congr 1
  exact Bpe.bpe_append (h.endsIn_merge hids hplain last) (h.beginsWith_merge hids hplain '▁')
    (h.not_merged hids hplain hsplit hcut) (h.endsIn_symbols hids hlevel hlast hknown text)
    (h.beginsWith_symbols hids hmark hc rest)

/-- The pieces between the cuts, each merged on its own, are the whole merged. -/
theorem Built.mapM_cutFrom (last : Char) (piece : List Char) (hpiece : piece ≠ [] → piece.getLast? = some last)
    (text : List Char) (hknown : t.unk ≠ NONE ∨ ∀ x ∈ piece ++ text, t.Covered x)
    (hlen : 4 * (piece ++ text).length < 2 ^ 32) :
    ∃ ids, (t.cutFrom last piece text).mapM t.mergeText = some ids ∧ ids.flatten = t.merged (piece ++ text) := by
  have hone : ∀ s : List Char, s.length ≤ (piece ++ text).length → t.mergeText s = some (t.merged s) := by
    intro s hs
    have hle := length_symbols_le t s
    exact mergeText_eq hlevel (by omega)
  induction text generalizing last piece with
  | nil =>
    rw [List.append_nil, cutFrom]
    split_ifs with hnil
    · refine ⟨[], rfl, ?_⟩
      rw [hnil]
      rfl
    · refine ⟨[t.merged piece], ?_, List.flatten_singleton⟩
      rw [List.mapM_cons, hone piece (by simp)]
      rfl
  | cons c text ih =>
    rw [cutFrom]
    split_ifs with hcut
    · obtain ⟨hne, hcut⟩ := hcut
      obtain ⟨before, hbefore⟩ := List.getLast?_eq_some_iff.mp (hpiece hne)
      have hlength : ([c] ++ text).length ≤ (piece ++ c :: text).length := by simp
      obtain ⟨ids, hmap, hflat⟩ := ih c [c] (fun _ => rfl)
        (hknown.imp_right fun hall x hx => hall x (List.mem_append_right piece hx)) (by omega)
        fun s hs => hone s (hs.trans hlength)
      refine ⟨t.merged piece :: ids, ?_, ?_⟩
      · rw [List.mapM_cons, hone piece (by simp), hmap]
        rfl
      · rw [List.flatten_cons, hflat, hbefore]
        refine (h.merged_append hids hplain hlevel hsplit hc hcut (hknown.imp_right fun hall => hall last ?_) before text).symm
        rw [hbefore]
        simp
    · have hsame : piece ++ [c] ++ text = piece ++ c :: text := by rw [List.append_assoc]; rfl
      obtain ⟨ids, hmap, hflat⟩ := ih c (piece ++ [c]) (fun _ => List.getLast?_concat)
        (by rwa [hsame]) (by rwa [hsame]) (by rwa [hsame])
      exact ⟨ids, hmap, by rw [hflat, hsame]⟩

end

/-- A text that is cut only where no token joins a character to the space after it is encoded as if it were not cut. -/
theorem segment_whole (C : Pieces.Categories) {doc model : Json} (h : fromJson doc = some (.ok t)) (hmodel : doc.get "model" = some model)
    (hids : Distinct (vocabulary doc model)) (hplain : t.PlainMerges (vocabulary doc model) (mergesOf model))
    (hlevel : has t.flags BYTE_LEVEL = false) (hsplit : has t.flags SPLIT = false) (hmark : t.charId '▁' ≠ NONE)
    (text : List Char) (hknown : t.unk ≠ NONE ∨ ∀ c ∈ t.prepended text, t.Covered c)
    (hlen : 4 * (t.prepended text).length < 2 ^ 32) :
    ∃ ids, t.segment C text = some ids ∧ t.mergeText (t.prepended text) = some ids := by
  have hbuilt := built_of_fromJson h hmodel
  obtain ⟨ids, hmap, hflat⟩ := hbuilt.mapM_cutFrom hids hplain hlevel hsplit hmark '▁' []
    (fun hne => absurd rfl hne) (t.prepended text) hknown hlen
  have hle := length_symbols_le t (t.prepended text)
  refine ⟨ids.flatten, ?_, by rw [hflat]; exact mergeText_eq hlevel (by omega)⟩
  rw [segment, if_neg (Bool.eq_false_iff.mp hlevel), hmap]
  rfl

/-! ## A tokenizer of two words -/

def spacedModel : Json :=
  .obj [("type", .str "BPE"), ("vocab", .obj [("a", .num 0), ("▁", .num 1), ("▁a", .num 2), ("<unk>", .num 3)]),
    ("unk_token", .str "<unk>"), ("merges", .arr [.arr [.str "▁", .str "a"]])]

def spaced : Json :=
  .obj [("normalizer", .obj [("type", .str "Replace"), ("content", .str "▁")]), ("model", spacedModel)]

/-- A text whose second word is a piece of its own, and is merged. -/
theorem segment_spaced : ∃ t ids, fromJson spaced = some (.ok t) ∧ t.segment Pieces.asciiCategories ['a', ' ', 'a'] = some ids ∧
    t.mergeText (t.prepended ['a', ' ', 'a']) = some ids := by
  obtain ⟨t, ht, hplain, hlevel, hsplit, hmark, hunk, hlen⟩ := @of_ofDocument spaced (fun t =>
    t.PlainMerges (vocabulary spaced spacedModel) (mergesOf spacedModel) ∧ has t.flags BYTE_LEVEL = false ∧
      has t.flags SPLIT = false ∧ t.charId '▁' ≠ NONE ∧ t.unk ≠ NONE ∧
        4 * (t.prepended ['a', ' ', 'a']).length < 2 ^ 32) _ (by decide +kernel)
  obtain ⟨ids, hsegment, hmerge⟩ := segment_whole Pieces.asciiCategories ht rfl (by decide +kernel) hplain hlevel hsplit hmark
    ['a', ' ', 'a'] (.inl hunk) hlen
  exact ⟨t, ids, ht, hsegment, hmerge⟩

end Chatlink.Token.Tokenizer
