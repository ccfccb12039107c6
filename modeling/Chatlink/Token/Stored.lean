import Chatlink.Lib.Codec
import Chatlink.Lib.Lists
import Chatlink.Lib.Loops
import Chatlink.Token.Build

/-!
# Tokenizer files

A tokenizer is stored as sections of 32-bit words, each behind its length; the text goes four bytes to a word, and
the table of the tokens' texts is left out where it is empty. A file reads back as what was stored, as long as every
length is one a word can hold.
-/
namespace Chatlink.Token

open Codec

def MAGIC : List UInt8 := [84, 65, 67, 72, 89, 84, 79, 75]

def damaged : Error := .format "tokenizer.tok: damaged, or written by an older Tachyon; convert the model again"

/-- A word's bytes, the lowest first. -/
def wordBytes (w : UInt32) : List UInt8 := le 4 w.toNat

/-- The words of some bytes, four to each; fewer at the end are left. -/
def wordsOf : List UInt8 → List UInt32
  | a :: b :: c :: d :: rest => UInt32.ofNat (ofLe [a, b, c, d]) :: wordsOf rest
  | _ => []

/-- Up to four bytes as a word. -/
def packed (chunk : List UInt8) : UInt32 := chunk.reverse.foldl (fun w b => w <<< 8 ||| b.toUInt32) 0

/-- A length-prefixed run of words, and the words after it. -/
def readSection : List UInt32 → Except Error (List UInt32 × List UInt32)
  | [] => .error damaged
  | n :: words =>
    let s := words.take n.toNat
    if s.length = n.toNat then .ok (s, words.drop n.toNat) else .error damaged

def readSections : ℕ → List UInt32 → Except Error (List (List UInt32) × List UInt32)
  | 0, words => .ok ([], words)
  | n + 1, words => do
    let (s, words) ← readSection words
    let (rest, words) ← readSections n words
    pure (s :: rest, words)

namespace Tokenizer

def head (t : Tokenizer) : List UInt32 := [t.flags, t.unk, UInt32.ofNat t.text.length, t.frame.1, t.frame.2]

/-- The sections of a file but for the last. -/
def sections (t : Tokenizer) : List (List UInt32) :=
  [t.head, t.offsets, (Loops.chunks 4 t.text).map packed, t.special, t.bytes, t.chars, t.rare, t.joins, t.added, t.merges]

def sectionWords (s : List UInt32) : List UInt32 := UInt32.ofNat s.length :: s

/-- The tokenizer as bytes. -/
def toBytes (t : Tokenizer) : List UInt8 :=
  MAGIC ++ (t.sections ++ if t.words = [] then [] else [t.words]).flatMap fun s => (sectionWords s).flatMap wordBytes

/-- What a file must hold for its tables to be looked up in. -/
def Sound (t : Tokenizer) : Prop :=
  t.offsets.getLast? = some (UInt32.ofNat t.text.length) ∧ t.bytes.length = 256 ∧ t.chars.length = DIRECT ∧
    t.merges.length.isPowerOfTwo

instance (t : Tokenizer) : Decidable t.Sound := by unfold Sound; infer_instance

/-- The words' table, where the file goes on; older files end before. -/
def lastSection (rest : List UInt32) : Except Error (List UInt32) :=
  if rest = [] then .ok [] else Prod.fst <$> readSection rest

/-- The tokenizer of a file's ten sections and of what follows them. -/
def assemble (rest : List UInt32) : List (List UInt32) → Except Error Tokenizer
  | [flags :: unk :: n :: framed, offsets, text, special, bytes, chars, rare, joins, added, merges] => do
    let words ← lastSection rest
    let t : Tokenizer :=
      { flags, unk, offsets, text := (text.flatMap wordBytes).take n.toNat, special, bytes, chars, rare, joins, added
        merges, words, frame := (framed[0]?.getD NONE, framed[1]?.getD NONE) }
    if t.Sound then pure t else throw damaged
  | _ => throw damaged

/-- A tokenizer stored by `toBytes`. -/
def fromBytes (data : List UInt8) : Except Error Tokenizer :=
  if MAGIC <+: data then do
    let (s, rest) ← readSections 10 (wordsOf (data.drop MAGIC.length))
    assemble rest s
  else throw damaged

end Tokenizer

/-! ## Words and bytes -/

theorem wordsOf_cons (w : UInt32) (rest : List UInt8) : wordsOf (wordBytes w ++ rest) = w :: wordsOf rest := by
  have h : ofLe (le 4 w.toNat) = w.toNat := ofLe_le_of_lt w.toNat_lt
  have hw : w = UInt32.ofNat (ofLe (le 4 w.toNat)) := by rw [h, UInt32.ofNat_toNat]
  conv_rhs => rw [hw]
  rfl

theorem wordsOf_words (ws : List UInt32) : wordsOf (ws.flatMap wordBytes) = ws := by
  induction ws with
  | nil => rfl
  | cons w ws ih => rw [List.flatMap_cons, wordsOf_cons, ih]

theorem readSection_words {s : List UInt32} (h : s.length < 2 ^ 32) (rest : List UInt32) :
    readSection (Tokenizer.sectionWords s ++ rest) = .ok (s, rest) := by
  have hn : (UInt32.ofNat s.length).toNat = s.length := by
    rw [UInt32.toNat_ofNat']
    omega
  rw [Tokenizer.sectionWords, List.cons_append, readSection, hn]
  simp

theorem readSection_ok {words s rest : List UInt32} (h : readSection words = .ok (s, rest)) : s.length < 2 ^ 32 := by
  cases words with
  | nil => cases h
  | cons n words =>
    rw [readSection] at h
    split_ifs at h with hn
    cases h
    have := n.toNat_lt
    omega

theorem readSections_words {ss : List (List UInt32)} (h : ∀ s ∈ ss, s.length < 2 ^ 32) (rest : List UInt32) :
    readSections ss.length (ss.flatMap Tokenizer.sectionWords ++ rest) = .ok (ss, rest) := by
  induction ss with
  | nil => rfl
  | cons s ss ih =>
    rw [List.flatMap_cons, List.append_assoc, List.length_cons, readSections,
      readSection_words (h s List.mem_cons_self)]
    change (readSections ss.length (ss.flatMap Tokenizer.sectionWords ++ rest) >>= _) = _
    rw [ih fun s hs => h s (List.mem_cons_of_mem _ hs)]
    rfl

theorem readSections_ok {n : ℕ} {words : List UInt32} {ss : List (List UInt32)} {rest : List UInt32}
    (h : readSections n words = .ok (ss, rest)) : ss.length = n ∧ ∀ s ∈ ss, s.length < 2 ^ 32 := by
  induction n generalizing words ss with
  | zero =>
    cases h
    exact ⟨rfl, nofun⟩
  | succ n ih =>
    rw [readSections] at h
    obtain ⟨⟨s, words'⟩, hs, h⟩ := Lists.bind_eq_ok h
    obtain ⟨⟨ss', words''⟩, hss, h⟩ := Lists.bind_eq_ok h
    cases h
    obtain ⟨hlen, hall⟩ := ih hss
    exact ⟨by rw [List.length_cons, hlen], List.forall_mem_cons.mpr ⟨readSection_ok hs, hall⟩⟩

/-! ## Four bytes to a word -/

theorem toNat_packed {c : List UInt8} (h : c.length ≤ 4) : (packed c).toNat = ofLe c := by
  induction c with
  | nil => rfl
  | cons b bs ih =>
    rw [List.length_cons] at h
    have hbs := ih (by omega)
    have hlt := ofLe_lt bs
    have hb := b.toNat_lt
    have hbound : 256 ^ bs.length ≤ 256 ^ 3 := Nat.pow_le_pow_right (by omega) (by omega)
    have hcons : packed (b :: bs) = packed bs <<< 8 ||| b.toUInt32 := by
      rw [packed, List.reverse_cons, List.foldl_append]
      rfl
    rw [hcons, UInt32.toNat_or, UInt32.toNat_shiftLeft, hbs, ofLe]
    have hshift : ofLe bs <<< ((8 : UInt32).toNat % 32) % 2 ^ 32 = ofLe bs <<< 8 := by
      rw [show (8 : UInt32).toNat % 32 = 8 from rfl, Nat.shiftLeft_eq]
      exact Nat.mod_eq_of_lt (by omega)
    rw [hshift, show b.toUInt32.toNat = b.toNat from UInt8.toNat_toUInt32 b, ← Nat.shiftLeft_add_eq_or_of_lt hb,
      Nat.shiftLeft_eq]
    omega

theorem wordBytes_packed {c : List UInt8} (h : c.length ≤ 4) :
    wordBytes (packed c) = c ++ List.replicate (4 - c.length) 0 := by
  rw [wordBytes, toNat_packed h, le_ofLe h]

/-- What the words of a text hold is the text, and zeros behind it. -/
theorem take_packed (text : List UInt8) :
    (((Loops.chunks 4 text).map packed).flatMap wordBytes).take text.length = text := by
  by_cases hnil : text = []
  · rw [hnil]
    rfl
  have hfirst : (text.take 4).length ≤ 4 := List.length_take_le 4 text
  rw [Loops.chunks_of_ne_nil (by omega) hnil, List.map_cons, List.flatMap_cons, wordBytes_packed hfirst]
  by_cases hlen : 4 ≤ text.length
  · have ih := take_packed (text.drop 4)
    rw [List.length_take_of_le hlen, Nat.sub_self, List.replicate_zero, List.append_nil]
    conv_rhs => rw [← List.take_append_drop 4 text]
    rw [List.take_append, List.take_take, List.length_take_of_le hlen, Nat.min_eq_right hlen, ← List.length_drop, ih]
  · rw [List.take_of_length_le (show text.length ≤ 4 by omega), List.append_assoc, List.take_left]
termination_by text.length
decreasing_by
  rw [List.length_drop]
  omega

namespace Tokenizer

/-- Every length is one that a word can hold. -/
def Fits (t : Tokenizer) : Prop :=
  t.text.length < 2 ^ 32 ∧
    ∀ s ∈ [t.offsets, t.special, t.bytes, t.chars, t.rare, t.joins, t.added, t.merges, t.words], s.length < 2 ^ 32

theorem Fits.sections {t : Tokenizer} (h : t.Fits) : ∀ s ∈ t.sections, s.length < 2 ^ 32 := by
  obtain ⟨htext, htables⟩ := h
  have hpacked : ((Loops.chunks 4 t.text).map packed).length < 2 ^ 32 := by
    rw [Loops.chunks, List.length_map, List.length_map, List.length_range, Nat.ceilDiv_eq_add_pred_div]
    omega
  simp only [List.mem_cons, List.not_mem_nil, or_false, forall_eq_or_imp, forall_eq] at htables
  simp only [Tokenizer.sections, List.mem_cons, List.not_mem_nil, or_false, forall_eq_or_imp, forall_eq]
  obtain ⟨ho, hs, hb, hc, hr, hj, ha, hm, -⟩ := htables
  exact ⟨by simp [head], ho, hpacked, hs, hb, hc, hr, hj, ha, hm⟩

theorem words_toBytes (t : Tokenizer) :
    t.toBytes.drop MAGIC.length =
      (t.sections.flatMap sectionWords ++ if t.words = [] then [] else sectionWords t.words).flatMap wordBytes := by
  rw [toBytes, List.drop_left, ← List.flatMap_assoc, List.flatMap_append]
  split_ifs <;> simp

theorem lastSection_words {words : List UInt32} (h : words.length < 2 ^ 32) :
    lastSection (if words = [] then [] else sectionWords words) = .ok words := by
  by_cases hnil : words = []
  · rw [if_pos hnil, hnil]
    rfl
  · have hone := readSection_words h []
    rw [List.append_nil] at hone
    rw [if_neg hnil, lastSection, if_neg (by simp [sectionWords]), hone]
    rfl

/-- What fits is read back. -/
theorem fromBytes_toBytes {t : Tokenizer} (hsound : t.Sound) (hfits : t.Fits) : fromBytes t.toBytes = .ok t := by
  have hmagic : MAGIC <+: t.toBytes := List.prefix_append _ _
  have hten : readSections 10 _ = _ :=
    readSections_words hfits.sections (if t.words = [] then [] else sectionWords t.words)
  have hn : (UInt32.ofNat t.text.length).toNat = t.text.length := by
    rw [UInt32.toNat_ofNat']
    have := hfits.1
    omega
  rw [fromBytes, if_pos hmagic, words_toBytes, wordsOf_words, hten]
  change assemble _ [t.head, _, _, _, _, _, _, _, _, _] = _
  rw [head, assemble, lastSection_words (hfits.2 t.words (by simp)), hn, take_packed]
  exact if_pos hsound

/-- What is read fits. -/
theorem fits_of_fromBytes {data : List UInt8} {t : Tokenizer} (h : fromBytes data = .ok t) : t.Fits := by
  rw [fromBytes] at h
  split_ifs at h with hmagic
  · obtain ⟨⟨s, rest⟩, hs, h⟩ := Lists.bind_eq_ok h
    obtain ⟨-, hall⟩ := readSections_ok hs
    dsimp only at h
    rw [assemble.eq_def] at h
    split at h
    · next flags unk n framed offsets text special bytes chars rare joins added merges =>
      obtain ⟨words, hwords, h⟩ := Lists.bind_eq_ok h
      dsimp only at h
      split_ifs at h with hsound
      cases h
      have hlast : words.length < 2 ^ 32 := by
        rw [lastSection] at hwords
        split_ifs at hwords
        · cases hwords
          exact Nat.two_pow_pos 32
        · obtain ⟨⟨s, more⟩, hread, hwords⟩ := Lists.bind_eq_ok hwords
          cases hwords
          exact readSection_ok hread
      refine ⟨?_, ?_⟩
      · have := n.toNat_lt
        rw [List.length_take]
        omega
      · simp only [List.mem_cons, List.not_mem_nil, or_false, forall_eq_or_imp, forall_eq] at hall ⊢
        obtain ⟨-, ho, -, hs, hb, hc, hr, hj, ha, hm⟩ := hall
        exact ⟨ho, hs, hb, hc, hr, hj, ha, hm, hlast⟩
    · cases h

/-! ## What is built is sound -/

/-- The tables that are looked up in directly, as a file must hold them, and how many tokens are in. -/
structure Shaped (n merges : ℕ) (t : Tokenizer) : Prop where
  last : t.offsets.getLast? = some (UInt32.ofNat t.text.length)
  bytes : t.bytes.length = 256
  chars : t.chars.length = DIRECT
  offsets : t.offsets.length = n + 1
  merges : t.merges.length = merges

section

variable {n k : ℕ} {t : Tokenizer}

theorem shaped_empty (flags unk : UInt32) (special : List UInt32) (merges : ℕ) :
    (empty flags unk special merges).Shaped 0 (4 * max (2 * merges).nextPowerOfTwo 2) :=
  ⟨rfl, List.length_replicate, List.length_replicate, rfl, List.length_replicate⟩

theorem Shaped.addText (h : t.Shaped n k) (text : List UInt8) : (t.addText text).Shaped (n + 1) k :=
  ⟨List.getLast?_concat, h.bytes, h.chars, by rw [Tokenizer.addText, List.length_append, h.offsets]; rfl, h.merges⟩

theorem Shaped.setByte (h : t.Shaped n k) (b : UInt8) (id : UInt32) :
    ({ t with bytes := t.bytes.set b.toNat id } : Tokenizer).Shaped n k :=
  ⟨h.last, by rw [List.length_set, h.bytes], h.chars, h.offsets, h.merges⟩

theorem Shaped.addPiece (h : t.Shaped n k) (id : UInt32) (name : String) : (t.addPiece id name).Shaped (n + 1) k := by
  unfold Tokenizer.addPiece
  dsimp only
  split
  · exact (h.setByte _ id).addText _
  · exact h.addText _

theorem Shaped.addChar (h : t.Shaped n k) (id : UInt32) (name : String) : (t.addChar id name).Shaped n k := by
  unfold Tokenizer.addChar
  split
  · split_ifs
    · exact ⟨h.last, h.bytes, by rw [List.length_set, h.chars], h.offsets, h.merges⟩
    · exact ⟨h.last, h.bytes, h.chars, h.offsets, h.merges⟩
  · exact h

theorem Shaped.add (h : t.Shaped n k) (id : UInt32) (name : String) : (t.add id name).Shaped (n + 1) k := by
  unfold Tokenizer.add Tokenizer.addByteToken Tokenizer.addToken
  dsimp only
  split_ifs
  · split
    · exact (h.setByte _ id).addText _
    · exact h.addText _
    · exact h.addText _
  · exact h.addPiece id name
  · exact (h.addPiece id name).addChar id name

theorem Shaped.addAll (h : t.Shaped n k) (names : List (String × ℕ)) :
    (names.foldl (fun t (name, id) => t.add (UInt32.ofNat id) name) t).Shaped (n + names.length) k := by
  induction names generalizing t n with
  | nil => exact h
  | cons name names ih =>
    have := ih (h.add (UInt32.ofNat name.2) name.1)
    rwa [Nat.add_assoc, Nat.add_comm 1] at this

end

theorem ok_of_bind {α β : Type} {x : Building α} {f : α → Building β} {b : β} (h : (x >>= f) = some (.ok b)) :
    ∃ a, x = some (.ok a) ∧ f a = some (.ok b) := by
  rcases x with _ | (e | a)
  · cases h
  · cases h
  · exact ⟨a, rfl, h⟩

theorem length_addMerge {ids : String → Option UInt32} {table table' : List UInt32} {m : (String × String) × ℕ}
    (h : addMerge ids table m = some (.ok table')) : table'.length = table.length := by
  unfold addMerge at h
  obtain ⟨left, -, h⟩ := ok_of_bind h
  obtain ⟨right, -, h⟩ := ok_of_bind h
  obtain ⟨made, -, h⟩ := ok_of_bind h
  obtain ⟨i, -, h⟩ := ok_of_bind h
  split_ifs at h
  · cases h
    simp only [List.length_set]
  · cases h
    rfl

theorem length_addMerges {ids : String → Option UInt32} {merges : List ((String × String) × ℕ)} {table table' : List UInt32}
    (h : merges.foldlM (addMerge ids) table = some (.ok table')) : table'.length = table.length := by
  induction merges generalizing table with
  | nil =>
    cases h
    rfl
  | cons m merges ih =>
    rw [List.foldlM_cons] at h
    obtain ⟨mid, hmid, h⟩ := ok_of_bind h
    rw [ih h, length_addMerge hmid]

theorem length_setNames (vocab : List (String × UInt32)) (names : List String) :
    (vocab.foldl (fun names v => names.set v.2.toNat v.1) names).length = names.length := by
  induction vocab generalizing names with
  | nil => rfl
  | cons v vocab ih => rw [List.foldl_cons, ih, List.length_set]

theorem length_namesOf (vocab : List (String × UInt32)) :
    (namesOf vocab).length = (vocab.map fun v => v.2.toNat + 1).foldl max 0 := by
  rw [namesOf, length_setNames, List.length_replicate]

theorem shaped_build {vocab : List (String × UInt32)} {merges : List (String × String)} {special added : List UInt32}
    {unk : Option String} {flags : UInt32} {t : Tokenizer}
    (h : build vocab merges special added unk flags = some (.ok t)) :
    t.Shaped (namesOf vocab).length (4 * max (2 * merges.length).nextPowerOfTwo 2) := by
  unfold build at h
  obtain ⟨table, htable, h⟩ := ok_of_bind h
  cases h
  have hshape := (shaped_empty flags ((unk >>= fun s => vocab.reverse.lookup s).getD NONE) (special.mergeSort (· ≤ ·))
    merges.length).addAll (namesOf vocab).zipIdx
  rw [Nat.zero_add, List.length_zipIdx] at hshape
  exact ⟨hshape.last, hshape.bytes, hshape.chars, hshape.offsets, (length_addMerges htable).trans hshape.merges⟩

theorem of_lift {α : Type} {x : Option α} {a : α} (h : (liftM x : Building α) = some (.ok a)) : x = some a := by
  cases x with
  | none => cases h
  | some b =>
    cases h
    rfl

theorem indexWords_frame {t t' : Tokenizer} {skip : List UInt32} (h : t.indexWords skip = some t') :
    ∃ words, t' = { t with words } := by
  unfold indexWords at h
  obtain ⟨table, -, h⟩ := Option.bind_eq_some_iff.mp h
  cases h
  exact ⟨_, rfl⟩

theorem Shaped.sound {n m : ℕ} {t : Tokenizer} (h : t.Shaped n (4 * max (2 * m).nextPowerOfTwo 2)) : t.Sound := by
  refine ⟨h.last, h.bytes, h.chars, ?_⟩
  rw [h.merges]
  obtain ⟨j, hj⟩ : (max (2 * m).nextPowerOfTwo 2).isPowerOfTwo := by
    obtain hmax | hmax := max_choice (2 * m).nextPowerOfTwo 2
    · rw [hmax]
      exact Nat.isPowerOfTwo_nextPowerOfTwo _
    · rw [hmax]
      exact ⟨1, rfl⟩
  exact ⟨j + 2, by rw [hj]; ring⟩

/-- What is built from a document holds what a file must, and an offset for each ID and one more. -/
theorem shaped_fromJson {doc : Json} {t : Tokenizer} (h : fromJson doc = some (.ok t)) :
    ∃ model m, doc.get "model" = some model ∧
      t.Shaped (namesOf (vocabulary doc model)).length (4 * max (2 * m).nextPowerOfTwo 2) := by
  unfold fromJson at h
  split at h
  · next model hmodel =>
    obtain ⟨⟨spaced, nfc⟩, -, h⟩ := ok_of_bind h
    obtain ⟨pre, -, h⟩ := ok_of_bind h
    dsimp only at h
    obtain ⟨t₀, hbuild, h⟩ := ok_of_bind h
    obtain ⟨hlast, hbytes, hchars, hoffsets, hmerges⟩ := shaped_build hbuild
    refine ⟨model, ((model.arrAt "merges").getD [] |>.filterMap pair).length, (Option.filter_eq_some_iff.mp hmodel).1, ?_⟩
    split_ifs at h
    · obtain ⟨words, rfl⟩ := indexWords_frame (of_lift h)
      exact ⟨hlast, hbytes, hchars, hoffsets, hmerges⟩
    · cases h
      exact ⟨hlast, hbytes, hchars, hoffsets, hmerges⟩
  · cases h

theorem sound_fromJson {doc : Json} {t : Tokenizer} (h : fromJson doc = some (.ok t)) : t.Sound := by
  obtain ⟨model, m, -, hshape⟩ := shaped_fromJson h
  exact hshape.sound

/-- The tokenizer of a document, if it is one that is read. -/
def ofDocument (doc : Json) : Option Tokenizer := (ExceptT.run (fromJson doc)).bind Except.toOption

theorem of_ofDocument {doc : Json} {p : Tokenizer → Prop} [DecidablePred p] (h : (ofDocument doc).any (fun t => p t) = true) :
    ∃ t, fromJson doc = some (.ok t) ∧ p t := by
  obtain ⟨t, ht, hp⟩ := (Option.any_eq_true _ _).mp h
  obtain ⟨r, hr, hok⟩ := Option.bind_eq_some_iff.mp ht
  cases r with
  | error e => cases hok
  | ok t' =>
    cases hok
    exact ⟨t, hr, of_decide_eq_true hp⟩

/-- A tokenizer is read back exactly when every length is one that a word can hold. -/
theorem reads_back {doc : Json} {t : Tokenizer} (h : fromJson doc = some (.ok t)) :
    fromBytes t.toBytes = .ok t ↔ t.Fits :=
  ⟨fits_of_fromBytes, fromBytes_toBytes (sound_fromJson h)⟩

/-- Tokens with a merge, a space mark within, and a character beyond the first plane, two of them added, and words that are
looked up before they are merged. -/
def storable : Json :=
  .obj [("added_tokens", .arr [.obj [("id", .num 7), ("content", .str "ih"), ("special", .bool false)],
      .obj [("id", .num 8), ("content", .str "</s>"), ("special", .bool true)]]),
    ("pre_tokenizer", .obj [("type", .str "Metaspace"), ("replacement", .str "▁"), ("split", .bool true)]),
    ("model", .obj [("type", .str "BPE"), ("ignore_merges", .bool true), ("unk_token", .str "<unk>"),
      ("vocab", .obj [("<unk>", .num 0), ("h", .num 1), ("i", .num 2), ("hi", .num 3), ("▁", .num 4), ("i▁", .num 5),
        ("𠮷", .num 6)]),
      ("merges", .arr [.arr [.str "h", .str "i"]])])]

/-- It is read back. -/
theorem reads_back_storable : ∃ t, fromJson storable = some (.ok t) ∧ fromBytes t.toBytes = .ok t ∧ t.Fits := by
  obtain ⟨t, ht, htext, hlens⟩ := @of_ofDocument storable (fun t => t.text.length = 22 ∧
    [t.offsets, t.special, t.rare, t.joins, t.added, t.merges, t.words].map List.length = [10, 1, 2, 1, 1, 8, 32]) _
    (by decide +kernel)
  have hfits : t.Fits := by
    obtain ⟨-, hbytes, hchars, -⟩ := sound_fromJson ht
    simp only [List.map_cons, List.map_nil, List.cons.injEq, and_true] at hlens
    refine ⟨by omega, ?_⟩
    simp only [List.mem_cons, List.not_mem_nil, or_false, forall_eq_or_imp, forall_eq, hlens, hbytes, hchars]
    decide
  exact ⟨t, ht, (reads_back ht).mpr hfits, hfits⟩

/-- A vocabulary of one token. -/
def oneToken (id : ℕ) : Json :=
  .obj [("model", .obj [("type", .str "BPE"), ("vocab", .obj [("a", .num id)])])]

theorem asU32_natCast {n : ℕ} (h : n < 2 ^ 32) : (asU32 n).toNat = n := by
  rw [asU32, Int.floor_natCast, Int.toNat_natCast, Nat.min_eq_left (by omega), UInt32.toNat_ofNat']
  exact Nat.mod_eq_of_lt h

/-- Its tokens go up to the ID, whatever the ID is. -/
theorem fromJson_oneToken {id : ℕ} (h : id < 2 ^ 32) :
    ∃ t, fromJson (oneToken id) = some (.ok t) ∧ t.offsets.length = id + 2 := by
  have hdoc : fromJson (oneToken id) = some (.ok _) := rfl
  obtain ⟨model, m, hmodel, hshape⟩ := shaped_fromJson hdoc
  refine ⟨_, hdoc, ?_⟩
  rw [hshape.offsets, length_namesOf]
  cases hmodel
  change max 0 ((asU32 id).toNat + 1) + 1 = id + 2
  rw [asU32_natCast h, Nat.zero_max]

/-- One whose last ID leaves no word for the number of offsets is not read back. -/
theorem last_id_lost : ∃ t, fromJson (oneToken 4294967294) = some (.ok t) ∧ fromBytes t.toBytes ≠ .ok t := by
  obtain ⟨t, ht, hoffsets⟩ := @fromJson_oneToken 4294967294 (by decide)
  refine ⟨t, ht, fun hback => ?_⟩
  have hfits := (fits_of_fromBytes hback).2 t.offsets (by simp)
  omega

end Tokenizer

end Chatlink.Token
