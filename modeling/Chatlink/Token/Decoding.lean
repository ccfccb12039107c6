import Chatlink.Token.Cutting
import Chatlink.Token.Detokenizer
import Chatlink.Token.Splitting

/-!
# Encoding and back

What a text is encoded to decodes to that text: a character's tokens spell it, no merge changes what a row spells, and the
pieces and the added tokens between them are the whole text. Only a space mark comes back as a space, and what the
pre-tokenizer puts before a text comes with it.
-/
namespace Chatlink.Token.Tokenizer

open Pieces Utf8

/-- A character as it comes back. -/
def shownChar (t : Tokenizer) (c : Char) : Char :=
  if has t.flags META ∧ has t.flags BYTE_LEVEL = false ∧ c = '▁' then ' ' else c

def shown (t : Tokenizer) (text : List Char) : List Char := text.map t.shownChar

/-! ## Names and what they spell -/

section

variable {flags : UInt32} {s x y : String}

theorem utf8_append (x y : String) : utf8 (x ++ y) = utf8 x ++ utf8 y := by
  rw [utf8, String.toList_append, Utf8.bytes, List.flatMap_append]
  rfl

/-- A name of characters, or of bytes. -/
def Spelled (flags : UInt32) (s : String) : Prop :=
  if has flags BYTE_LEVEL then (s.toList.mapM byteOf).isSome = true else (has flags BYTES = true → byteName s = none)

theorem spell_chars (h : Spelled flags s) (hlevel : has flags BYTE_LEVEL = false) :
    spell flags false s = utf8 (if has flags META then s.map fun c => if c = '▁' then ' ' else c else s) := by
  rw [Spelled, if_neg (Bool.eq_false_iff.mp hlevel)] at h
  have hnone : ((byteName s).filter fun _ => has flags BYTES && !false) = none := by
    cases hbytes : has flags BYTES with
    | false => cases byteName s <;> rfl
    | true =>
      rw [h hbytes]
      rfl
  rw [spell, if_neg (by rw [hlevel]; decide), hnone, Bool.not_false, Bool.and_true]

/-- What joins plain names spells what they spell. -/
theorem spell_append (hx : Spelled flags x) (hy : Spelled flags y) (hxy : Spelled flags (x ++ y)) :
    spell flags false (x ++ y) = spell flags false x ++ spell flags false y := by
  cases hlevel : has flags BYTE_LEVEL with
  | false =>
    rw [spell_chars hx hlevel, spell_chars hy hlevel, spell_chars hxy hlevel, ← utf8_append]
    split_ifs
    · congr 1
      rw [← String.toList_inj, String.toList_append, String.toList_map, String.toList_map, String.toList_map,
        String.toList_append, List.map_append]
    · rfl
  | true =>
    rw [Spelled, if_pos hlevel] at hx hy
    obtain ⟨dx, hdx⟩ := Option.isSome_iff_exists.mp hx
    obtain ⟨dy, hdy⟩ := Option.isSome_iff_exists.mp hy
    have happend : (x ++ y).toList.mapM byteOf = some (dx ++ dy) := by
      rw [String.toList_append, List.mapM_append, hdx, hdy]
      rfl
    have hspell : ∀ {z : String} {d : List UInt8}, z.toList.mapM byteOf = some d → spell flags false z = d := by
      intro z d hd
      rw [spell, if_pos (by rw [hlevel]; rfl), hd]
      rfl
    rw [hspell happend, hspell hdx, hspell hdy]

end

section

variable {t : Tokenizer} {c : Char} {vocab : List (String × UInt32)} {merges : List (String × String)} {special plain : List UInt32}
  (h : Built t vocab merges special plain) (hfits : t.Fits)

include h hfits

/-- The token of a byte spells it. -/
theorem Built.tokenBytes_byte {b : UInt8} (hb : t.byteId b ≠ NONE) : t.tokenBytes (t.byteId b) = [b] := by
  obtain ⟨name, hname, hbyte, hspecial⟩ := h.named.byte b hb
  rw [h.named.tokenBytes hfits hname, hspecial, spell]
  rw [NameOfByte] at hbyte
  split_ifs at hbyte with hlevel
  · rw [if_pos (by rw [hlevel]; rfl), hbyte]
    rfl
  · rw [if_neg (by simpa using hlevel), hbyte.1, hbyte.2]
    rfl

/-- The token of a character spells it. -/
theorem Built.tokenBytes_char (hlevel : has t.flags BYTE_LEVEL = false) (hc : t.charId c ≠ NONE) :
    t.tokenBytes (t.charId c) = String.utf8EncodeChar (t.shownChar c) := by
  obtain ⟨name, hname, hlist, hspecial⟩ := h.named.char c hc
  have hbyte : byteName name = none := by
    unfold byteName
    rw [hlist]
    split
    · next heq => cases heq
    · next heq => cases heq
    · rfl
  have hspelled : Spelled t.flags name := by
    rw [Spelled, if_neg (Bool.eq_false_iff.mp hlevel)]
    exact fun _ => hbyte
  have hone : ∀ (s : String) (d : Char), s.toList = [d] → utf8 s = String.utf8EncodeChar d := by
    intro s d hs
    rw [utf8, hs]
    exact List.append_nil _
  rw [h.named.tokenBytes hfits hname, hspecial, spell_chars hspelled hlevel, shownChar]
  split_ifs with hmeta hboth hboth
  · refine hone _ _ ?_
    rw [String.toList_map, hlist, List.map_singleton, if_pos hboth.2.2]
  · refine hone _ _ ?_
    rw [String.toList_map, hlist, List.map_singleton, if_neg fun heq => hboth ⟨hmeta, hlevel, heq⟩]
  · exact absurd hboth.1 hmeta
  · exact hone _ _ hlist

/-- A merge spells what its two tokens do. -/
theorem Built.tokenBytes_merge (hids : Distinct vocab) (hplain : t.PlainMerges vocab merges) (a b : UInt32) (m : ℕ × UInt32)
    (hm : usable t.merge a b = some m) : t.tokenBytes m.2 = t.tokenBytes a ++ t.tokenBytes b := by
  obtain ⟨x, y, hmem, hx, hy, hxy⟩ := h.usable_cases hm
  obtain ⟨hpx, hpy, hpxy⟩ := hplain _ hmem
  have hspell : ∀ {s : String} {id : UInt32}, vocab.reverse.lookup s = some id → t.Plain vocab s →
      t.tokenBytes id = spell t.flags false s ∧ Spelled t.flags s := by
    intro s id hs hp
    obtain ⟨hspecial, -, hspelled⟩ := hp id hs
    rw [h.named.tokenBytes hfits (name_of_lookup hids hs), hspecial]
    exact ⟨rfl, hspelled⟩
  rw [(hspell hx hpx).1, (hspell hy hpy).1, (hspell hxy hpxy).1]
  exact spell_append (hspell hx hpx).2 (hspell hy hpy).2 (hspell hxy hpxy).2

/-! ## Rows -/

/-- The tokens of bytes spell them. -/
theorem Built.flatMap_byteId {bs : List UInt8} (hbs : ∀ b ∈ bs, t.byteId b ≠ NONE) :
    (bs.map t.byteId).flatMap t.tokenBytes = bs := by
  induction bs with
  | nil => rfl
  | cons b bs ih =>
    obtain ⟨hb, hrest⟩ := List.forall_mem_cons.mp hbs
    rw [List.map_cons, List.flatMap_cons, h.tokenBytes_byte hfits hb, ih hrest]
    rfl

omit h hfits in
theorem shownChar_mark (hlevel : has t.flags BYTE_LEVEL = false) (c : Char) : t.shownChar (t.mark c) = t.shownChar c := by
  rw [mark]
  split_ifs with hmark
  · rw [hmark.1, shownChar, shownChar, if_pos ⟨hmark.2, hlevel, rfl⟩]
    split_ifs <;> rfl
  · rfl

omit h hfits in
theorem shownChar_eq (hlevel : has t.flags BYTE_LEVEL = false) (hc : has t.flags META → t.mark c ≠ '▁') :
    t.shownChar c = t.mark c := by
  rw [← shownChar_mark hlevel, shownChar, if_neg fun hboth => hc hboth.1 hboth.2.2]

/-- The symbols that a character adds spell it, and none is special. -/
theorem Built.symbol_spells (hlevel : has t.flags BYTE_LEVEL = false) (hc : t.Covered c) (ids : List UInt32) :
    (t.symbol ids c).flatMap t.tokenBytes = ids.flatMap t.tokenBytes ++ String.utf8EncodeChar (t.shownChar c) ∧
      ((∀ id ∈ ids, t.isSpecial id = false) → ∀ id ∈ t.symbol ids c, t.isSpecial id = false) := by
  rw [Covered, if_neg (Bool.eq_false_iff.mp hlevel)] at hc
  by_cases hchar : t.charId (t.mark c) ≠ NONE
  · obtain ⟨name, -, -, hspecial⟩ := h.named.char _ hchar
    rw [symbol_char hchar]
    refine ⟨?_, fun hall id hid => ?_⟩
    · rw [List.flatMap_append, List.flatMap_singleton, h.tokenBytes_char hfits hlevel hchar, shownChar_mark hlevel]
    · obtain hid | hid := List.mem_append.mp hid
      · exact hall id hid
      · rw [List.mem_singleton.mp hid]
        exact hspecial
  · obtain ⟨hmark, hbytes, hall⟩ := hc.resolve_left hchar
    rw [symbol_bytes (not_not.mp hchar) (byteIds_of hbytes hall)]
    refine ⟨?_, fun hids id hid => ?_⟩
    · rw [List.flatMap_append, h.flatMap_byteId hfits hall, shownChar_eq hlevel hmark]
    · obtain hid | hid := List.mem_append.mp hid
      · exact hids id hid
      · obtain ⟨b, hb, rfl⟩ := List.mem_map.mp hid
        obtain ⟨name, -, -, hspecial⟩ := h.named.byte b (hall b hb)
        exact hspecial

theorem Built.symbols_spell (hlevel : has t.flags BYTE_LEVEL = false) {text : List Char} (hc : ∀ c ∈ text, t.Covered c)
    {ids : List UInt32} (hids : ∀ id ∈ ids, t.isSpecial id = false) :
    (text.foldl t.symbol ids).flatMap t.tokenBytes = ids.flatMap t.tokenBytes ++ Utf8.bytes (t.shown text) ∧
      ∀ id ∈ text.foldl t.symbol ids, t.isSpecial id = false := by
  induction text generalizing ids with
  | nil => exact ⟨(List.append_nil _).symm, hids⟩
  | cons c text ih =>
    obtain ⟨hfirst, hrest⟩ := List.forall_mem_cons.mp hc
    obtain ⟨hspell, hspecial⟩ := h.symbol_spells hfits hlevel hfirst ids
    obtain ⟨htext, hall⟩ := ih hrest (hspecial hids)
    refine ⟨?_, hall⟩
    rw [List.foldl_cons, htext, hspell, List.append_assoc]
    rfl

omit h hfits in
theorem shown_byteLevel (hlevel : has t.flags BYTE_LEVEL = true) (text : List Char) : t.shown text = text := by
  refine (List.map_congr_left fun c _ => if_neg ?_).trans (List.map_id text)
  rintro ⟨-, hfalse, -⟩
  rw [hlevel] at hfalse
  cases hfalse

omit h hfits in
theorem length_bytes_le (text : List Char) : (Utf8.bytes text).length ≤ 4 * text.length := by
  induction text with
  | nil => exact le_rfl
  | cons c text ih =>
    have hone := Char.utf8Size_le_four c
    rw [Utf8.bytes_cons, List.length_append, String.length_utf8EncodeChar, List.length_cons]
    omega

omit h hfits in
theorem length_row_le (t : Tokenizer) (text : List Char) : (t.row text).length ≤ 4 * text.length := by
  rw [row]
  split_ifs
  · rw [List.length_map]
    exact length_bytes_le text
  · exact length_symbols_le t text

/-- The row of a text spells it. -/
theorem Built.row_spells {text : List Char} (hc : ∀ c ∈ text, t.Covered c) :
    (t.row text).flatMap t.tokenBytes = Utf8.bytes (t.shown text) ∧ ∀ id ∈ t.row text, t.isSpecial id = false := by
  cases hlevel : has t.flags BYTE_LEVEL with
  | false =>
    rw [row, if_neg (Bool.eq_false_iff.mp hlevel)]
    exact h.symbols_spell hfits hlevel hc fun id hid => absurd hid List.not_mem_nil
  | true =>
    have hall : ∀ b ∈ Utf8.bytes text, t.byteId b ≠ NONE := by
      intro b hb
      obtain ⟨c, hmem, hb⟩ := List.mem_flatMap.mp hb
      have hcovered := hc c hmem
      rw [Covered, if_pos hlevel] at hcovered
      exact hcovered b hb
    rw [row, if_pos hlevel, shown_byteLevel hlevel]
    refine ⟨h.flatMap_byteId hfits hall, fun id hid => ?_⟩
    obtain ⟨b, hb, rfl⟩ := List.mem_map.mp hid
    obtain ⟨name, -, -, hspecial⟩ := h.named.byte b (hall b hb)
    exact hspecial

/-- Some tokens that spell a text, none of them special. -/
structure Spells (t : Tokenizer) (text : List Char) (ids : List UInt32) : Prop where
  bytes : ids.flatMap t.tokenBytes = Utf8.bytes text
  plain : ∀ id ∈ ids, t.isSpecial id = false

omit h hfits in
/-- The pieces between the cuts are the text. -/
theorem cutFrom_flatten (t : Tokenizer) (last : Char) (piece text : List Char) :
    (t.cutFrom last piece text).flatten = piece ++ text := by
  induction text generalizing last piece with
  | nil =>
    rw [cutFrom]
    split_ifs with hnil
    · rw [hnil]
      rfl
    · rw [List.flatten_singleton, List.append_nil]
  | cons c text ih =>
    rw [cutFrom]
    split_ifs
    · rw [List.flatten_cons, ih]
      rfl
    · rw [ih, List.append_assoc]
      rfl

omit h hfits in
theorem Spells.append {u v : List Char} {ids more : List UInt32} (hu : t.Spells u ids) (hv : t.Spells v more) :
    t.Spells (u ++ v) (ids ++ more) := by
  refine ⟨?_, fun id hid => ?_⟩
  · rw [List.flatMap_append, hu.bytes, hv.bytes, Utf8.bytes, Utf8.bytes, Utf8.bytes, List.flatMap_append]
  · exact (List.mem_append.mp hid).elim (hu.plain id) (hv.plain id)

omit h in
/-- Tokens that are none spell nothing. -/
theorem flatMap_filter_none (ids : List UInt32) :
    (ids.filter fun id => id ≠ NONE).flatMap t.tokenBytes = ids.flatMap t.tokenBytes := by
  induction ids with
  | nil => rfl
  | cons id ids ih =>
    by_cases hid : id = NONE
    · rw [List.filter_cons_of_neg (by simpa using hid), ih, List.flatMap_cons, hid, tokenBytes_none hfits, List.nil_append]
    · rw [List.filter_cons_of_pos (by simpa using hid), List.flatMap_cons, ih, List.flatMap_cons]

section

variable (hids : Distinct vocab) (hplain : t.PlainMerges vocab merges)

include hids hplain

/-- A text is merged into what spells it. -/
theorem Built.mergeText_spells {text : List Char} (hc : ∀ c ∈ text, t.Covered c) (hlen : 4 * text.length < 2 ^ 32) :
    ∃ ids, t.mergeText text = some ids ∧ t.Spells (t.shown text) ids := by
  obtain ⟨hspell, hspecial⟩ := h.row_spells hfits hc
  have hle := length_row_le t text
  refine ⟨_, mergeAll_eq t.merge (show (t.row text).length < 2 ^ 32 by omega), ?_, ?_⟩
  · rw [flatMap_filter_none hfits, Bpe.bpe_flatMap (h.tokenBytes_merge hfits hids hplain), hspell]
  · intro id hid
    have hmade : ∀ a b m, usable t.merge a b = some m → t.isSpecial m.2 = false := by
      intro a b m hm
      obtain ⟨x, y, hmem, -, -, hxy⟩ := h.usable_cases hm
      exact ((hplain _ hmem).2.2 _ hxy).1
    exact Bpe.bpe_forall hmade hspecial id (List.mem_of_mem_filter hid)

omit hids hplain hfits in
/-- A token that was not added is not special. -/
theorem Built.not_special {id : UInt32} (hid : id ∉ special ++ plain) : t.isSpecial id = false := by
  rw [isSpecial, h.sorted, Bool.eq_false_iff, ne_eq, List.contains_iff_mem, List.mem_mergeSort]
  exact fun hmem => hid (List.mem_append_left plain hmem)

/-- A piece of a byte-level text becomes tokens that spell it. -/
theorem Built.byteWord_spells (hlevel : has t.flags BYTE_LEVEL = true) {piece : List Char} (hc : ∀ c ∈ piece, t.Covered c)
    (hlen : 4 * piece.length < 2 ^ 32) : ∃ ids, t.byteWord piece = some ids ∧ t.Spells (t.shown piece) ids := by
  obtain ⟨r, hr, hword⟩ := h.word (Utf8.bytes piece)
  rw [byteWord, hr]
  cases r with
  | none => exact h.mergeText_spells hfits hids hplain hc hlen
  | some id =>
    obtain ⟨htext, hnot⟩ := hword id rfl
    refine ⟨[id], rfl, ?_, List.forall_mem_singleton.mpr (h.not_special hnot)⟩
    rw [shown_byteLevel hlevel, List.flatMap_singleton, htext]

omit h hfits hids hplain in
/-- A piece of a text is no longer than it, and has its characters. -/
theorem piece_of_flatten {pieces : List (List Char)} {text w : List Char} (hflat : pieces.flatten = text) (hw : w ∈ pieces) :
    w.length ≤ text.length ∧ ∀ c ∈ w, c ∈ text := by
  subst hflat
  exact ⟨(List.sublist_flatten_of_mem hw).length_le, fun c hc => List.mem_flatten_of_mem hw hc⟩

omit h hfits hids hplain in
/-- Pieces become the tokens of each. -/
theorem mapM_spells {f : List Char → Option (List UInt32)} {pieces : List (List Char)}
    (hf : ∀ w ∈ pieces, ∃ ids, f w = some ids ∧ t.Spells (t.shown w) ids) :
    ∃ ids, pieces.mapM f = some ids ∧ t.Spells (t.shown pieces.flatten) ids.flatten := by
  induction pieces with
  | nil => exact ⟨[], rfl, rfl, fun id hid => absurd hid List.not_mem_nil⟩
  | cons w pieces ih =>
    obtain ⟨hfirst, hrest⟩ := List.forall_mem_cons.mp hf
    obtain ⟨ids, hids, hspell⟩ := hfirst
    obtain ⟨more, hmore, hall⟩ := ih hrest
    refine ⟨ids :: more, ?_, ?_⟩
    · rw [List.mapM_cons, hids, hmore]
      rfl
    · rw [List.flatten_cons, List.flatten_cons, shown, List.map_append]
      exact hspell.append hall

/-- A text without added tokens becomes tokens that spell it. -/
theorem Built.segment_spells (C : Categories) (hpattern : t.pattern ≠ none) {text : List Char}
    (hc : ∀ c ∈ t.prepended text, t.Covered c) (hlen : 4 * (t.prepended text).length < 2 ^ 32) :
    ∃ ids, t.segment C text = some ids ∧ t.Spells (t.shown (t.prepended text)) ids := by
  have hsub : ∀ {pieces : List (List Char)}, pieces.flatten = t.prepended text → ∀ w ∈ pieces,
      (∀ c ∈ w, t.Covered c) ∧ 4 * w.length < 2 ^ 32 := by
    intro pieces hflat w hw
    obtain ⟨hle, hmem⟩ := piece_of_flatten hflat hw
    exact ⟨fun c hcw => hc c (hmem c hcw), by omega⟩
  rw [segment]
  cases hlevel : has t.flags BYTE_LEVEL with
  | true =>
    obtain ⟨p, hp⟩ := Option.ne_none_iff_exists'.mp hpattern
    have hflat := (pieces_match C p (t.prepended text)).2.1
    obtain ⟨ids, hmap, hspell⟩ := mapM_spells fun w hw =>
      h.byteWord_spells hfits hids hplain hlevel (hsub hflat w hw).1 (hsub hflat w hw).2
    rw [hflat] at hspell
    refine ⟨ids.flatten, ?_, hspell⟩
    rw [if_pos rfl, byteSegment, hp]
    change ((pieces C p (t.prepended text)).mapM t.byteWord).bind _ = _
    rw [hmap]
    rfl
  | false =>
    have hflat := cutFrom_flatten t '▁' [] (t.prepended text)
    rw [List.nil_append] at hflat
    obtain ⟨ids, hmap, hspell⟩ := mapM_spells fun w hw =>
      h.mergeText_spells hfits hids hplain (hsub hflat w hw).1 (hsub hflat w hw).2
    rw [hflat] at hspell
    refine ⟨ids.flatten, ?_, hspell⟩
    rw [if_neg Bool.false_ne_true, hmap]
    rfl

end

end

/-! ## Added tokens -/

theorem bytes_starts {w s : List Char} (h : Utf8.bytes w <+: Utf8.bytes s) : w <+: s := by
  induction w generalizing s with
  | nil => exact List.nil_prefix
  | cons c w ih =>
    obtain ⟨rest, hrest⟩ := h
    rw [Utf8.bytes_cons, List.append_assoc] at hrest
    cases s with
    | nil => exact absurd (List.append_eq_nil_iff.mp hrest).1 (Utf8.encode_ne_nil c)
    | cons d s =>
      have hhead := head_encode d (Utf8.bytes s)
      rw [← Utf8.bytes_cons, ← hrest, head_encode] at hhead
      obtain ⟨rfl, hbytes⟩ := Head.char.inj hhead
      obtain ⟨more, rfl⟩ := ih ⟨rest, hbytes⟩
      exact ⟨more, rfl⟩

theorem charsIn_bytes (w rest : List Char) : charsIn (w ++ rest) (Utf8.bytes w).length = some w.length := by
  induction w with
  | nil => cases rest <;> rfl
  | cons c w ih =>
    obtain ⟨n, hn⟩ : ∃ n, (Utf8.bytes (c :: w)).length = n + 1 := by
      refine Nat.exists_eq_succ_of_ne_zero fun hzero => ?_
      rw [Utf8.bytes_cons, List.length_append, Nat.add_eq_zero_iff] at hzero
      exact Utf8.encode_ne_nil c (List.length_eq_zero_iff.mp hzero.1)
    have hsum := hn
    rw [Utf8.bytes_cons, List.length_append] at hsum
    have hleft : n + 1 - (String.utf8EncodeChar c).length = (Utf8.bytes w).length := by omega
    rw [hn, List.cons_append, charsIn, if_pos (by omega), hleft, ih]
    rfl

/-- What an added token is found by. -/
theorem addedAt_some {t : Tokenizer} {rest : List UInt8} {id : UInt32} {len : ℕ} (h : t.addedAt rest = some (id, len)) :
    id ∈ t.added ∧ t.tokenBytes id <+: rest ∧ len = (t.tokenBytes id).length := by
  cases rest with
  | nil => cases h
  | cons first rest =>
    obtain ⟨id', hfind, heq⟩ := Option.map_eq_some_iff.mp h
    cases heq
    have hstarts := List.find?_some hfind
    have hmem := List.mem_of_find?_eq_some hfind
    refine ⟨?_, List.isPrefixOf_iff_prefix.mp hstarts, rfl⟩
    exact (List.drop_sublist _ _).subset ((List.takeWhile_sublist _).subset hmem)

/-- Where the added tokens are in the order of their first bytes, the first of them that `rest` starts with is found. -/
theorem addedAt_of_sorted {t : Tokenizer} (h : t.added.Pairwise fun a b => t.start a ≤ t.start b) (first : UInt8)
    (rest : List UInt8) : t.addedAt (first :: rest) =
      ((t.added.filter fun id => decide (t.start id = first.toNat)).find? fun id =>
        (t.tokenBytes id).isPrefixOf (first :: rest)).map fun id => (id, (t.tokenBytes id).length) := by
  rw [← Partition.takeWhile_drop_point h]
  rfl

/-- A part of a text: an added token, or what is between two. -/
def showPart (t : Tokenizer) (part : List Char × Option UInt32) : List Char :=
  match part.2 with
  | none => t.shown (t.prepended part.1)
  | some _ => part.1

/-- Parts of a text, those that are tokens added. -/
structure Parts (t : Tokenizer) (text : List Char) (parts : List (List Char × Option UInt32)) : Prop where
  text : parts.flatMap Prod.fst = text
  added : ∀ p ∈ parts, ∀ id ∈ p.2, id ∈ t.added ∧ t.tokenBytes id = Utf8.bytes p.1

/-- What comes before a text may need a token too. -/
def CoversPrepended (t : Tokenizer) : Prop :=
  has t.flags PREPEND → t.Covered (if has t.flags BYTE_LEVEL then ' ' else '▁')

/-- Added tokens are whole characters, and none is special. -/
def AddedWhole (t : Tokenizer) : Prop :=
  ∀ id ∈ t.added, t.isSpecial id = false ∧ ∃ w : List Char, w ≠ [] ∧ t.tokenBytes id = Utf8.bytes w

section

variable {t : Tokenizer} {vocab : List (String × UInt32)} {merges : List (String × String)} {special plain : List UInt32}
  (h : Built t vocab merges special plain) (hfits : t.Fits) (hids : Distinct vocab) (hplain : t.PlainMerges vocab merges)
  (hpattern : t.pattern ≠ none) (hprepend : t.CoversPrepended) (hadded : t.AddedWhole)

theorem length_prepended_le (t : Tokenizer) (text : List Char) : (t.prepended text).length ≤ text.length + 1 := by
  rw [prepended]
  split_ifs
  · exact le_rfl
  · exact le_rfl
  · exact Nat.le_succ _

theorem covered_prepended (hprepend : t.CoversPrepended) {text : List Char} (hc : ∀ c ∈ text, t.Covered c) :
    ∀ c ∈ t.prepended text, t.Covered c := by
  rw [prepended]
  split_ifs with hcond hlevel
  · have hfirst := hprepend hcond.1
    rw [if_pos hlevel] at hfirst
    exact List.forall_mem_cons.mpr ⟨hfirst, hc⟩
  · have hfirst := hprepend hcond.1
    rw [if_neg hlevel] at hfirst
    exact List.forall_mem_cons.mpr ⟨hfirst, hc⟩
  · exact hc

include h hfits hids hplain hpattern hprepend hadded

/-- The loop over a text, part by part. -/
theorem Built.encodeFrom_spells (C : Categories) {fuel : ℕ} {text : List Char} (read : List Char) (hfuel : text.length < fuel)
    (hc : ∀ c ∈ read ++ text, t.Covered c) (hlen : 4 * ((read ++ text).length + 1) < 2 ^ 32) :
    ∃ ids parts, t.encodeFrom C fuel read text = some ids ∧ t.Parts (read ++ text) parts ∧
      t.Spells (parts.flatMap t.showPart) ids := by
  induction fuel generalizing read text with
  | zero => omega
  | succ fuel ih =>
    have hread : ∃ ids, t.segment C read = some ids ∧ t.Spells (t.shown (t.prepended read)) ids := by
      have hall := covered_prepended hprepend fun c hmem => hc c (List.mem_append_left text hmem)
      have hle := length_prepended_le t read
      rw [List.length_append] at hlen
      exact h.segment_spells hfits hids hplain C hpattern hall (by omega)
    obtain ⟨before, hbefore, hspell⟩ := hread
    cases text with
    | nil =>
      refine ⟨before, [(read, none)], hbefore, ⟨?_, ?_⟩, ?_⟩
      · exact List.flatMap_singleton _ _ |>.trans (List.append_nil read).symm
      · intro p hp id hid
        rw [List.mem_singleton.mp hp] at hid
        cases hid
      · rw [List.flatMap_singleton]
        exact hspell
    | cons c text =>
      rw [List.length_cons] at hfuel
      cases hfound : t.addedAt (Utf8.bytes (c :: text)) with
      | none =>
        have hsame : read ++ [c] ++ text = read ++ c :: text := by rw [List.append_assoc]; rfl
        obtain ⟨ids, parts, hencode, hparts, hspells⟩ :=
          @ih text (read ++ [c]) (by omega) (by rwa [hsame]) (by rwa [hsame])
        rw [hsame] at hparts
        refine ⟨ids, parts, ?_, hparts, hspells⟩
        rw [encodeFrom, hfound]
        exact hencode
      | some found =>
        obtain ⟨id, len⟩ := found
        obtain ⟨hmem, hstarts, rfl⟩ := addedAt_some hfound
        obtain ⟨hspecial, w, hw, htoken⟩ := hadded id hmem
        rw [htoken] at hstarts
        obtain ⟨rest, hrest⟩ := bytes_starts hstarts
        have hwpos := List.length_pos_iff.mpr hw
        have hlength := congrArg List.length hrest
        rw [List.length_append, List.length_cons] at hlength
        rw [List.length_append, List.length_cons] at hlen
        obtain ⟨after, parts, hafter, hparts, hspells⟩ := @ih rest [] (by omega)
          (fun x hx => hc x (List.mem_append_right read (hrest ▸ List.mem_append_right w hx)))
          (by rw [List.nil_append]; omega)
        refine ⟨before ++ id :: after, (read, none) :: (w, some id) :: parts, ?_, ⟨?_, ?_⟩, ?_⟩
        · rw [encodeFrom, hfound]
          dsimp only
          rw [hbefore, htoken, ← hrest, charsIn_bytes]
          change (encodeFrom C t fuel [] ((w ++ rest).drop w.length)).bind _ = _
          rw [List.drop_left, hafter]
          rfl
        · rw [List.flatMap_cons, List.flatMap_cons, hparts.text, List.nil_append, hrest]
        · intro p hp id' hid'
          obtain rfl | hp := List.mem_cons.mp hp
          · cases hid'
          · obtain rfl | hp := List.mem_cons.mp hp
            · cases hid'
              exact ⟨hmem, htoken⟩
            · exact hparts.added p hp id' hid'
        · have hone : t.Spells w [id] := ⟨by rw [List.flatMap_singleton, htoken], List.forall_mem_singleton.mpr hspecial⟩
          rw [List.flatMap_cons, List.flatMap_cons]
          exact hspell.append (hone.append hspells)

end

theorem byteLevel_flags {pre : Json} {flags : UInt32} (h : byteLevel pre = some flags) :
    ∃ a : Bool, ∃ bit : UInt32, (bit = 0 ∨ bit = CL100K ∨ bit = O200K) ∧ flags = BYTE_LEVEL ||| flagIf a PREPEND ||| bit := by
  have hpart : ∀ {p : Json} {regex : Bool} {f : UInt32}, byteLevelFlags p regex = some f →
      ∃ a : Bool, f = BYTE_LEVEL ||| flagIf a PREPEND := by
    intro p regex f hf
    unfold byteLevelFlags at hf
    dsimp only at hf
    split_ifs at hf
    cases hf
    exact ⟨_, rfl⟩
  unfold byteLevel at h
  split at h
  · next f hf =>
    cases h
    obtain ⟨a, rfl⟩ := hpart hf
    exact ⟨a, 0, .inl rfl, UInt32.or_zero.symm⟩
  · split at h
    · obtain ⟨⟨_, pattern⟩, -, h⟩ := Option.bind_eq_some_iff.mp h
      obtain ⟨f, hf, h⟩ := Option.bind_eq_some_iff.mp h
      cases h
      obtain ⟨a, rfl⟩ := hpart hf
      refine ⟨a, _, ?_, rfl⟩
      cases pattern <;> simp
    · cases h

/-- The flags of a pre-tokenizer. -/
theorem preTokenizer_flags {pre : Option Json} {spaced : Bool} {flags : UInt32} (h : preTokenizer pre spaced = .ok flags) :
    ∃ a b : Bool, flags = 0 ∨
      (∃ bit : UInt32, (bit = 0 ∨ bit = CL100K ∨ bit = O200K) ∧ flags = BYTE_LEVEL ||| flagIf a PREPEND ||| bit) ∨
      flags = META ||| flagIf a SPLIT ||| flagIf b PREPEND := by
  unfold preTokenizer at h
  split at h
  · cases h
    exact ⟨false, false, .inl rfl⟩
  · cases h
    exact ⟨false, false, .inl rfl⟩
  · split at h
    · next f hf =>
      cases h
      obtain ⟨a, bit, hbit, rfl⟩ := byteLevel_flags hf
      exact ⟨a, false, .inr (.inl ⟨bit, hbit, rfl⟩)⟩
    · split_ifs at h
      · cases h
        exact ⟨false, false, .inl rfl⟩
      · cases h
        exact ⟨_, _, .inr (.inr rfl)⟩

theorem one_pattern {a b nfc spaced fallback : Bool} {bit pre : UInt32} (hbit : bit = 0 ∨ bit = CL100K ∨ bit = O200K)
    (hpre : pre = 0 ∨ pre = BYTE_LEVEL ||| flagIf a PREPEND ||| bit ∨ pre = META ||| flagIf a SPLIT ||| flagIf b PREPEND) :
    ¬(has (pre ||| flagIf nfc NFC ||| flagIf spaced META ||| flagIf fallback BYTES) CL100K = true ∧
      has (pre ||| flagIf nfc NFC ||| flagIf spaced META ||| flagIf fallback BYTES) O200K = true) := by
  obtain rfl | rfl | rfl := hpre
  · revert nfc spaced fallback
    decide
  · obtain rfl | rfl | rfl := hbit
    all_goals
      revert a nfc spaced fallback
      decide
  · revert a b nfc spaced fallback
    decide

/-- The flags of a document name one pattern. -/
theorem pattern_of_fromJson {doc : Json} {t : Tokenizer} (h : fromJson doc = some (.ok t)) : t.pattern ≠ none := by
  obtain ⟨model, flags, t₀, words, -, ⟨pre, spaced, nfc, fallback, hpre, rfl⟩, hbuild, rfl⟩ := fromJson_build h
  obtain ⟨-, -, -, -, hflags⟩ := build_named hbuild
  have hnot : ¬(has t₀.flags CL100K = true ∧ has t₀.flags O200K = true) := by
    rw [hflags]
    obtain ⟨a, b, rfl | ⟨bit, hbit, rfl⟩ | rfl⟩ := preTokenizer_flags hpre
    · exact @one_pattern a b nfc spaced fallback 0 0 (.inl rfl) (.inl rfl)
    · exact @one_pattern a b nfc spaced fallback bit _ hbit (.inr (.inl rfl))
    · exact @one_pattern a b nfc spaced fallback 0 _ (.inl rfl) (.inr (.inr rfl))
  rw [pattern]
  dsimp only
  split
  · exact Option.some_ne_none _
  · exact Option.some_ne_none _
  · exact Option.some_ne_none _
  · next hc ho => exact absurd ⟨hc, ho⟩ hnot

/-- An added token holds no space mark. -/
theorem Built.shown_added {t : Tokenizer} {vocab : List (String × UInt32)} {merges : List (String × String)}
    {special plain : List UInt32} (h : Built t vocab merges special plain) (hfits : t.Fits) {id : UInt32} (hid : id ∈ t.added)
    (hspecial : t.isSpecial id = false) {w : List Char} (htoken : t.tokenBytes id = Utf8.bytes w) : t.shown w = w := by
  refine (List.map_congr_left fun c hc => if_neg ?_).trans (List.map_id w)
  rintro ⟨hmeta, hlevel, rfl⟩
  rw [h.added, matched] at hid
  dsimp only at hid
  obtain ⟨-, hname⟩ := List.mem_filter.mp (List.mem_mergeSort.mp hid)
  obtain ⟨name, hname, hchars⟩ := (Option.any_eq_true _ _).mp hname
  rw [Bool.and_eq_true, Bool.not_eq_true', Bool.not_eq_true', List.contains_eq_mem, decide_eq_false_iff_not] at hchars
  rw [h.named.tokenBytes hfits hname, hspecial, spell, if_neg (by rw [hlevel]; decide)] at htoken
  split at htoken
  · next b _ =>
    -- one byte is no space mark
    have hle := (List.sublist_flatten_of_mem (List.mem_map_of_mem (f := String.utf8EncodeChar) hc)).length_le
    rw [← List.flatMap_def] at hle
    rw [Utf8.bytes] at htoken
    rw [← htoken] at hle
    rw [show (String.utf8EncodeChar '▁').length = 3 by decide, List.length_singleton] at hle
    omega
  · rw [Bool.not_false, Bool.and_true, if_pos hmeta, utf8, String.toList_map] at htoken
    have hw : name.toList.map (fun c => if c = '▁' then ' ' else c) = w :=
      (bytes_starts (htoken ▸ List.prefix_rfl)).eq_of_length_le (bytes_starts (htoken ▸ List.prefix_rfl)).length_le
    rw [← hw] at hc
    obtain ⟨d, hd, hmark⟩ := List.mem_map.mp hc
    split_ifs at hmark with hsame
    · exact absurd hmark (by decide)
    · exact hsame hmark

/-- What a text is encoded to comes back as the text: in its normal form, with spaces for space marks, and with what the
pre-tokenizer puts before each part between added tokens. -/
theorem encode_decodes (C : Categories) {doc model : Json} {t : Tokenizer} (h : fromJson doc = some (.ok t))
    (hmodel : doc.get "model" = some model) (hfits : t.Fits) (hids : Distinct (vocabulary doc model))
    (hplain : t.PlainMerges (vocabulary doc model) (mergesOf model)) (hprepend : t.CoversPrepended) (hadded : t.AddedWhole)
    (text : List Char) (hc : ∀ c ∈ t.normal C text, t.Covered c) (hlen : 4 * ((t.normal C text).length + 1) < 2 ^ 32) :
    ∃ ids parts, t.encode C text = some ids ∧ t.Parts (t.normal C text) parts ∧
      Detokenizer.whole t ids = parts.flatMap t.showPart ∧
        (has t.flags PREPEND = false → Detokenizer.whole t ids = t.shown (t.normal C text)) := by
  have hbuilt := built_of_fromJson h hmodel
  obtain ⟨ids, parts, hencode, hparts, hspells⟩ := hbuilt.encodeFrom_spells hfits hids hplain (pattern_of_fromJson h) hprepend
    hadded C [] (Nat.lt_succ_self (t.normal C text).length) hc hlen
  rw [List.nil_append] at hparts
  have hspoken : Detokenizer.spoken t ids = Utf8.bytes (parts.flatMap t.showPart) := by
    rw [Detokenizer.spoken, List.filter_eq_self.mpr fun id hid => by rw [hspells.plain id hid]; rfl]
    exact hspells.bytes
  have hwhole : Detokenizer.whole t ids = parts.flatMap t.showPart := by
    have hreads := Detokenizer.reads_whole t ids
    have htext := Reads.nil.append (parts.flatMap t.showPart)
    rw [List.append_nil, List.append_nil] at htext
    rw [hspoken] at hreads
    exact hreads.unique htext
  refine ⟨ids, parts, hencode, hparts, hwhole, fun hnone => ?_⟩
  rw [hwhole, ← hparts.text, shown, List.map_flatMap]
  refine List.flatMap_congr fun p hp => ?_
  rw [showPart]
  split
  · rw [prepended, if_neg fun hboth => Bool.false_ne_true (hnone.symm.trans hboth.1)]
    rfl
  · next id heq =>
    obtain ⟨hmem, htoken⟩ := hparts.added p hp id heq
    exact (hbuilt.shown_added hfits hmem (hadded id hmem).1 htoken).symm

/-! ## A byte-level tokenizer -/

def greetingModel : Json :=
  .obj [("type", .str "BPE"), ("vocab", .obj [("h", .num 0), ("i", .num 1), ("Ġ", .num 2), ("hi", .num 3), ("<", .num 4),
      ("/", .num 5), ("s", .num 6), (">", .num 7)]),
    ("merges", .arr [.arr [.str "h", .str "i"]])]

def greeting : Json :=
  .obj [("added_tokens", .arr [.obj [("id", .num 8), ("content", .str "ih"), ("special", .bool false)],
      .obj [("id", .num 9), ("content", .str "</s>"), ("special", .bool true)]]),
    ("pre_tokenizer", .obj [("type", .str "ByteLevel"), ("add_prefix_space", .bool false), ("use_regex", .bool true)]),
    ("model", greetingModel)]

/-- What is read from the document, as far as `encode_decodes` asks. -/
theorem greeting_read : ∃ t, fromJson greeting = some (.ok t) ∧ t.flags = BYTE_LEVEL ∧
    t.PlainMerges (vocabulary greeting greetingModel) (mergesOf greetingModel) ∧ t.Fits ∧ t.AddedWhole ∧
      t.Covered 'h' ∧ t.Covered 'i' ∧ t.Covered ' ' := by
  obtain ⟨t, ht, hflags, hplain, htext, hlens, hadded, hspecial, hbytes, hh, hi, hs⟩ := @of_ofDocument greeting (fun t =>
    t.flags = BYTE_LEVEL ∧ t.PlainMerges (vocabulary greeting greetingModel) (mergesOf greetingModel) ∧
      t.text.length = 15 ∧
        [t.offsets, t.special, t.rare, t.joins, t.merges, t.words].map List.length = [11, 1, 0, 0, 8, 0] ∧
          t.added = [8] ∧ t.isSpecial 8 = false ∧ t.tokenBytes 8 = [105, 104] ∧
            t.Covered 'h' ∧ t.Covered 'i' ∧ t.Covered ' ') _ (by decide +kernel)
  refine ⟨t, ht, hflags, hplain, ⟨?_, ?_⟩, ?_, hh, hi, hs⟩
  · omega
  · obtain ⟨-, hbyte, hchars, -⟩ := sound_fromJson ht
    simp only [List.map_cons, List.map_nil, List.cons.injEq, and_true] at hlens
    simp only [List.mem_cons, List.not_mem_nil, or_false, forall_eq_or_imp, forall_eq, hlens, hbyte, hchars, hadded]
    decide
  · rw [AddedWhole, hadded, List.forall_mem_singleton]
    exact ⟨hspecial, ['i', 'h'], List.cons_ne_nil _ _, hbytes⟩

/-- A text of words, the second of which begins with the added token. -/
theorem encode_greeting : ∃ t ids, fromJson greeting = some (.ok t) ∧
    t.encode asciiCategories ['h', 'i', ' ', 'i', 'h', 'i', ' ', 'h'] = some ids ∧
      Detokenizer.whole t ids = ['h', 'i', ' ', 'i', 'h', 'i', ' ', 'h'] := by
  obtain ⟨t, ht, hflags, hplain, hfits, hadded, hh, hi, hs⟩ := greeting_read
  have hprepend : has t.flags PREPEND = false := by
    rw [hflags]
    rfl
  have hnormal : t.normal asciiCategories ['h', 'i', ' ', 'i', 'h', 'i', ' ', 'h'] = ['h', 'i', ' ', 'i', 'h', 'i', ' ', 'h'] := by
    rw [normal, hflags]
    rfl
  obtain ⟨ids, parts, hencode, -, -, hwhole⟩ := encode_decodes asciiCategories ht rfl hfits (by decide +kernel) hplain
    (fun hflag => absurd hflag (Bool.eq_false_iff.mp hprepend)) hadded ['h', 'i', ' ', 'i', 'h', 'i', ' ', 'h']
    (by simp only [hnormal, List.forall_mem_cons, hh, hi, hs, List.not_mem_nil, IsEmpty.forall_iff, implies_true, and_self])
    (by rw [hnormal]; decide)
  refine ⟨t, ids, ht, hencode, ?_⟩
  rw [hwhole hprepend, hnormal, shown_byteLevel (by rw [hflags]; rfl)]
end Chatlink.Token.Tokenizer
