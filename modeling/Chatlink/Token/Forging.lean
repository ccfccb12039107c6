import Chatlink.Token.Decoding

/-!
# Text forges no special token

Special tokens are in none of the tables that a text is looked up in. So a text is encoded without them, except for the
unknown one, where no merge makes one and none is added as a plain one too.
-/
namespace Chatlink.Token.Tokenizer

open Pieces

/-- What a text may become. -/
def Ordinary (t : Tokenizer) (id : UInt32) : Prop := t.isSpecial id = false ∨ id = t.unk

/-- The same, before what is none is left out. -/
def OrdinaryOrNone (t : Tokenizer) (id : UInt32) : Prop := t.Ordinary id ∨ id = NONE

section

variable {t : Tokenizer} {vocab : List (String × UInt32)} {merges : List (String × String)} {special plain : List UInt32}
  (h : Built t vocab merges special plain)

include h

theorem Built.ordinary_byte (b : UInt8) : t.OrdinaryOrNone (t.byteId b) := by
  by_cases hb : t.byteId b = NONE
  · exact .inr hb
  · obtain ⟨name, -, -, hspecial⟩ := h.named.byte b hb
    exact .inl (.inl hspecial)

theorem Built.ordinary_symbol {ids : List UInt32} (hids : ∀ id ∈ ids, t.OrdinaryOrNone id) (c : Char) :
    ∀ id ∈ t.symbol ids c, t.OrdinaryOrNone id := by
  by_cases hchar : t.charId (t.mark c) ≠ NONE
  · obtain ⟨name, -, -, hspecial⟩ := h.named.char _ hchar
    rw [symbol_char hchar]
    exact List.forall_mem_append.mpr ⟨hids, List.forall_mem_singleton.mpr (.inl (.inl hspecial))⟩
  · cases hbytes : t.byteIds (t.mark c) with
    | some l =>
      rw [symbol_bytes (not_not.mp hchar) hbytes, (byteIds_some hbytes).1]
      refine List.forall_mem_append.mpr ⟨hids, fun id hid => ?_⟩
      obtain ⟨b, -, rfl⟩ := List.mem_map.mp hid
      exact h.ordinary_byte b
    | none =>
      rw [symbol_unknown (not_not.mp hchar) hbytes]
      split_ifs
      · exact List.forall_mem_append.mpr ⟨hids, List.forall_mem_singleton.mpr (.inl (.inr rfl))⟩
      · exact hids

theorem Built.ordinary_row (text : List Char) : ∀ id ∈ t.row text, t.OrdinaryOrNone id := by
  rw [row]
  split_ifs
  · intro id hid
    obtain ⟨b, -, rfl⟩ := List.mem_map.mp hid
    exact h.ordinary_byte b
  · have hall : ∀ (text : List Char) (ids : List UInt32), (∀ id ∈ ids, t.OrdinaryOrNone id) →
        ∀ id ∈ text.foldl t.symbol ids, t.OrdinaryOrNone id := by
      intro text
      induction text with
      | nil => exact fun ids hids => hids
      | cons c text ih => exact fun ids hids => ih _ (h.ordinary_symbol hids c)
    exact hall text [] fun id hid => absurd hid List.not_mem_nil

/-- No merge makes a special token. -/
def NoneMade (t : Tokenizer) (vocab : List (String × UInt32)) (merges : List (String × String)) : Prop :=
  ∀ m ∈ merges, ∀ id ∈ vocab.reverse.lookup (m.1 ++ m.2), t.isSpecial id = false

section

variable (hmade : t.NoneMade vocab merges)

include hmade

theorem Built.ordinary_mergeText {text : List Char} (hlen : 4 * text.length < 2 ^ 32) {ids : List UInt32}
    (hids : t.mergeText text = some ids) : ∀ id ∈ ids, t.Ordinary id := by
  have hle := length_row_le t text
  rw [mergeText, mergeAll_eq t.merge (by omega)] at hids
  obtain rfl := Option.some.inj hids
  intro id hid
  obtain ⟨hmem, hne⟩ := List.mem_filter.mp hid
  have hkept : ∀ a b m, usable t.merge a b = some m → t.OrdinaryOrNone m.2 := by
    intro a b m hm
    obtain ⟨x, y, hmem, -, -, hxy⟩ := h.usable_cases hm
    exact .inl (.inl (hmade _ hmem _ hxy))
  exact (Bpe.bpe_forall hkept (h.ordinary_row text) id hmem).resolve_right (of_decide_eq_true hne)

theorem Built.ordinary_byteWord {piece : List Char} (hlen : 4 * piece.length < 2 ^ 32) {ids : List UInt32}
    (hids : t.byteWord piece = some ids) : ∀ id ∈ ids, t.Ordinary id := by
  obtain ⟨r, hr, hword⟩ := h.word (Utf8.bytes piece)
  rw [byteWord, hr] at hids
  cases r with
  | none => exact h.ordinary_mergeText hmade hlen hids
  | some id =>
    cases hids
    exact List.forall_mem_singleton.mpr (.inl (h.not_special (hword id rfl).2))

omit h hmade in
theorem forall_flatten_mapM {f : List Char → Option (List UInt32)} {pieces : List (List Char)} {words : List (List UInt32)}
    {P : UInt32 → Prop} (hf : ∀ w ∈ pieces, ∀ ids, f w = some ids → ∀ id ∈ ids, P id) (hwords : pieces.mapM f = some words) :
    ∀ id ∈ words.flatten, P id := by
  induction pieces generalizing words with
  | nil =>
    cases hwords
    exact fun id hid => absurd hid List.not_mem_nil
  | cons w pieces ih =>
    obtain ⟨hfirst, hrest⟩ := List.forall_mem_cons.mp hf
    rw [List.mapM_cons] at hwords
    obtain ⟨ids, hids, hwords⟩ := Option.bind_eq_some_iff.mp hwords
    obtain ⟨more, hmore, hwords⟩ := Option.bind_eq_some_iff.mp hwords
    cases hwords
    rw [List.flatten_cons]
    exact List.forall_mem_append.mpr ⟨hfirst ids hids, ih hrest hmore⟩

theorem Built.ordinary_segment (C : Categories) {text : List Char} (hlen : 4 * (t.prepended text).length < 2 ^ 32)
    {ids : List UInt32} (hids : t.segment C text = some ids) : ∀ id ∈ ids, t.Ordinary id := by
  have hsub : ∀ {pieces : List (List Char)}, pieces.flatten = t.prepended text → ∀ w ∈ pieces, 4 * w.length < 2 ^ 32 := by
    intro pieces hflat w hw
    have hle := (piece_of_flatten hflat hw).1
    omega
  rw [segment] at hids
  cases hlevel : has t.flags BYTE_LEVEL with
  | true =>
    rw [if_pos hlevel, byteSegment] at hids
    obtain ⟨p, hp, hids⟩ := Option.bind_eq_some_iff.mp hids
    obtain ⟨words, hwords, hids⟩ := Option.bind_eq_some_iff.mp hids
    cases hids
    have hflat := (pieces_match C p (t.prepended text)).2.1
    exact forall_flatten_mapM (fun w hw _ hword => h.ordinary_byteWord hmade (hsub hflat w hw) hword) hwords
  | false =>
    rw [if_neg (Bool.eq_false_iff.mp hlevel)] at hids
    obtain ⟨words, hwords, hids⟩ := Option.bind_eq_some_iff.mp hids
    cases hids
    have hflat := cutFrom_flatten t '▁' [] (t.prepended text)
    exact forall_flatten_mapM (fun w hw _ hword => h.ordinary_mergeText hmade (hsub hflat w hw) hword) hwords

theorem Built.ordinary_encodeFrom (hadded : ∀ id ∈ t.added, t.isSpecial id = false) (C : Categories) {fuel : ℕ}
    {read text : List Char} (hlen : 4 * ((read ++ text).length + 1) < 2 ^ 32) {ids : List UInt32}
    (hids : t.encodeFrom C fuel read text = some ids) : ∀ id ∈ ids, t.Ordinary id := by
  induction fuel generalizing read text ids with
  | zero => cases hids
  | succ fuel ih =>
    have hread : ∀ before, t.segment C read = some before → ∀ id ∈ before, t.Ordinary id := by
      intro before hbefore
      have hle := length_prepended_le t read
      rw [List.length_append] at hlen
      exact h.ordinary_segment hmade C (by omega) hbefore
    cases text with
    | nil => exact hread ids hids
    | cons c text =>
      rw [encodeFrom] at hids
      split at hids
      · next id len hfound =>
        obtain ⟨before, hbefore, hids⟩ := Option.bind_eq_some_iff.mp hids
        obtain ⟨n, -, hids⟩ := Option.bind_eq_some_iff.mp hids
        obtain ⟨after, hafter, hids⟩ := Option.bind_eq_some_iff.mp hids
        cases hids
        have hrest : 4 * (([] ++ (c :: text).drop n).length + 1) < 2 ^ 32 := by
          rw [List.length_append] at hlen
          rw [List.nil_append, List.length_drop]
          omega
        exact List.forall_mem_append.mpr ⟨hread before hbefore,
          List.forall_mem_cons.mpr ⟨.inl (hadded id (addedAt_some hfound).1), ih hrest hafter⟩⟩
      · refine ih ?_ hids
        rwa [List.append_assoc, List.singleton_append]

end

end

/-- Whatever the text, its tokens are not special, but for the unknown one. -/
theorem encode_ordinary (C : Categories) {doc model : Json} {t : Tokenizer} (h : fromJson doc = some (.ok t))
    (hmodel : doc.get "model" = some model) (hmade : t.NoneMade (vocabulary doc model) (mergesOf model))
    (hadded : ∀ id ∈ t.added, t.isSpecial id = false) {text : List Char} (hlen : 4 * ((t.normal C text).length + 1) < 2 ^ 32)
    {ids : List UInt32} (hids : t.encode C text = some ids) : ∀ id ∈ ids, t.isSpecial id = false ∨ id = t.unk := by
  have hbuilt := built_of_fromJson h hmodel
  exact @Built.ordinary_encodeFrom _ _ _ _ _ hbuilt hmade hadded C _ [] _ hlen _ hids

/-- A text that spells a special token. -/
theorem encode_spelled : ∃ t ids, fromJson greeting = some (.ok t) ∧
    t.encode asciiCategories ['h', 'i', '<', '/', 's', '>'] = some ids ∧ ∀ id ∈ ids, t.isSpecial id = false ∨ id = t.unk := by
  obtain ⟨t, ht, hencode, hflags, hplain, hadded, hspecial⟩ := @of_ofDocument greeting (fun t =>
    t.encode asciiCategories ['h', 'i', '<', '/', 's', '>'] = some [3, 4, 5, 6, 7] ∧ t.flags = BYTE_LEVEL ∧
      t.PlainMerges (vocabulary greeting greetingModel) (mergesOf greetingModel) ∧ t.added = [8] ∧ t.isSpecial 8 = false) _
    (by decide +kernel)
  have hmade : t.NoneMade (vocabulary greeting greetingModel) (mergesOf greetingModel) :=
    fun m hm id hid => ((hplain m hm).2.2 id hid).1
  have hlen : 4 * ((t.normal asciiCategories ['h', 'i', '<', '/', 's', '>']).length + 1) < 2 ^ 32 := by
    rw [normal, hflags]
    decide
  exact ⟨t, _, ht, hencode, encode_ordinary asciiCategories ht rfl hmade (by rwa [hadded, List.forall_mem_singleton]) hlen hencode⟩

end Chatlink.Token.Tokenizer
