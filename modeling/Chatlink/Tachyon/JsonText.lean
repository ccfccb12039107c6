import Chatlink.Tachyon.Json

/-!
# What a document says

The grammar of texts and the values they denote: white space anywhere it may stand, every escape, any nesting. An
escape of half a surrogate pair denotes U+FFFD. A reader at a text that the grammar derives finds its value and stops
right behind it.
-/
namespace Chatlink.Tachyon.Json

open Ascii

variable {F : Type}

/-! ## The grammar -/

def Ws (bs : List UInt8) : Prop := ∀ b ∈ bs, b = 0x20 ∨ b = 0x09 ∨ b = 0x0a ∨ b = 0x0d

/-- The escapes of one letter. -/
def shortEscapes : List (UInt8 × Char) :=
  [(0x22, '"'), (0x5c, '\\'), (0x2f, '/'), (0x62, Char.ofNat 8), (0x66, Char.ofNat 12), (0x6e, '\n'), (0x72, '\r'),
    (0x74, '\t')]

/-- Four digits and the number they spell. -/
def Hex4 (d : List UInt8) (n : ℕ) : Prop := d.length = 4 ∧ hexNumber 0 d = some n

/-- The escape of a number. -/
def unit (d : List UInt8) : List UInt8 := BACKSLASH :: 0x75 :: d

/-- The inside of a string and its characters. -/
inductive Chars : List UInt8 → List Char → Prop where
  | nil : Chars [] []
  | raw {c : Char} {bs cs} (hc : 0x20 ≤ c.toNat ∧ c ≠ '"' ∧ c ≠ '\\') (h : Chars bs cs) :
      Chars (String.utf8EncodeChar c ++ bs) (c :: cs)
  | short {b : UInt8} {c : Char} {bs cs} (hc : (b, c) ∈ shortEscapes) (h : Chars bs cs) :
      Chars (BACKSLASH :: b :: bs) (c :: cs)
  | scalar {d : List UInt8} {n : ℕ} {bs cs} (hd : Hex4 d n) (hn : n < 0xd800 ∨ 0xdfff < n) (h : Chars bs cs) :
      Chars (unit d ++ bs) (Char.ofNat n :: cs)
  | pair {d d' : List UInt8} {hi lo : ℕ} {bs cs} (hd : Hex4 d (0xd800 + hi)) (hhi : hi < 0x400)
      (hd' : Hex4 d' (0xdc00 + lo)) (hlo : lo < 0x400) (h : Chars bs cs) :
      Chars (unit d ++ (unit d' ++ bs)) (Char.ofNat (0x10000 + hi * 0x400 + lo) :: cs)
  /-- The second half of a pair, alone. -/
  | low {d : List UInt8} {n : ℕ} {bs cs} (hd : Hex4 d n) (hn : 0xdc00 ≤ n ∧ n ≤ 0xdfff) (h : Chars bs cs) :
      Chars (unit d ++ bs) (Utf8.REPLACEMENT :: cs)
  /-- The first half of a pair, alone, before anything but another escape of a number. -/
  | high {d : List UInt8} {n : ℕ} {bs cs} (hd : Hex4 d n) (hn : 0xd800 ≤ n ∧ n < 0xdc00)
      (hnext : ¬[BACKSLASH, 0x75] <+: bs) (h : Chars bs cs) : Chars (unit d ++ bs) (Utf8.REPLACEMENT :: cs)

def quotes (bs : List UInt8) : List UInt8 := QUOTE :: (bs ++ [QUOTE])

/-- An item of a list: its text with the white space around it, and its value. -/
structure Item (α : Type) where
  before : List UInt8
  text : List UInt8
  behind : List UInt8
  val : α

/-- Items with commas between them. -/
def joined {α : Type} : List (Item α) → List UInt8
  | [] => []
  | [p] => p.before ++ (p.text ++ p.behind)
  | p :: ps => p.before ++ (p.text ++ (p.behind ++ 0x2c :: joined ps))

/-- A member of an object. -/
structure Member (F : Type) where
  before : List UInt8
  keyText : List UInt8
  key : List Char
  ws₁ : List UInt8
  ws₂ : List UInt8
  text : List UInt8
  behind : List UInt8
  val : Json F

def Member.item (m : Member F) : Item (List Char × Json F) :=
  ⟨m.before, quotes m.keyText ++ (m.ws₁ ++ 0x3a :: (m.ws₂ ++ m.text)), m.behind, (m.key, m.val)⟩

/-- A value without white space around it. -/
inductive Denotes (read : List UInt8 → Option F) : List UInt8 → Json F → Prop where
  | null : Denotes read (byteString "null") .null
  | bool (b : Bool) : Denotes read (byteString (if b then "true" else "false")) (.bool b)
  | num {c : UInt8} {t : List UInt8} {n : F} (hc : isDigit c = true ∨ c = 0x2d) (ht : ∀ b ∈ c :: t, numeric b = true)
      (hn : read (c :: t) = some n) : Denotes read (c :: t) (.num n)
  | str {bs : List UInt8} {cs : List Char} (h : Chars bs cs) : Denotes read (quotes bs) (.str cs)
  | emptyArr {ws : List UInt8} (hws : Ws ws) : Denotes read (0x5b :: (ws ++ [0x5d])) (.arr [])
  | arr {ps : List (Item (Json F))} (hne : ps ≠ []) (hws : ∀ p ∈ ps, Ws p.before ∧ Ws p.behind)
      (h : ∀ p ∈ ps, Denotes read p.text p.val) : Denotes read (0x5b :: (joined ps ++ [0x5d])) (.arr (ps.map Item.val))
  | emptyObj {ws : List UInt8} (hws : Ws ws) : Denotes read (OPEN :: (ws ++ [CLOSE])) (.obj [])
  | obj {ms : List (Member F)} (hne : ms ≠ []) (hws : ∀ m ∈ ms, Ws m.before ∧ Ws m.ws₁ ∧ Ws m.ws₂ ∧ Ws m.behind)
      (hk : ∀ m ∈ ms, Chars m.keyText m.key) (h : ∀ m ∈ ms, Denotes read m.text m.val) :
      Denotes read (OPEN :: (joined (ms.map Member.item) ++ [CLOSE])) (.obj (ms.map fun m => (m.key, m.val)))

/-- A document: a value with white space around it. -/
def Document (read : List UInt8 → Option F) (s : List UInt8) (v : Json F) : Prop :=
  ∃ ws bs ws', s = ws ++ (bs ++ ws') ∧ Ws ws ∧ Denotes read bs v ∧ Ws ws'

/-! ## Positions -/

section

variable {s bs after : List UInt8} {i : ℕ}

/-- What stands at a position. -/
def At (s : List UInt8) (i : ℕ) (bs : List UInt8) : Prop := s.drop i = bs

theorem At.drop (h : At s i (bs ++ after)) : At s (i + bs.length) after := by
  rw [At, ← List.drop_drop, h, List.drop_left]

theorem At.get {b : UInt8} (h : At s i (b :: after)) : s[i]? = some b := by
  rw [← List.head?_drop, h]
  rfl

theorem eat_found (h : At s i (bs ++ after)) : eat s i bs = some (i + bs.length) := by
  rw [eat, h, if_pos (List.prefix_append bs after)]

theorem eat_missing (h : At s i after) (hp : ¬bs <+: after) : eat s i bs = none := by
  rw [eat, h, if_neg hp]

/-- What does not begin with white space. -/
def Dark (bs : List UInt8) : Prop := ∀ b, bs.head? = some b → isWhitespace b = false

theorem isWhitespace_of_ws (hws : Ws bs) : ∀ b ∈ bs, isWhitespace b = true := by
  intro b hb
  rcases hws b hb with rfl | rfl | rfl | rfl
  · rfl
  · rfl
  · rfl
  · rfl

theorem takeWhile_append {p : UInt8 → Bool} (hbs : ∀ b ∈ bs, p b = true) (hafter : ∀ b, after.head? = some b → p b = false) :
    (bs ++ after).takeWhile p = bs := by
  rw [List.takeWhile_append_of_pos hbs]
  cases after with
  | nil => simp
  | cons b after => rw [List.takeWhile_cons_of_neg (by simp [hafter b rfl]), List.append_nil]

theorem space_of_ws (h : At s i (bs ++ after)) (hws : Ws bs) (hdark : Dark after) : space s i = i + bs.length := by
  rw [space, h, takeWhile_append (isWhitespace_of_ws hws) hdark]

end

/-! ## Escapes -/

section

variable {s rest : List UInt8} {i n : ℕ} {d : List UInt8}

theorem hex_of (hd : Hex4 d n) (h : At s i (d ++ rest)) : hex s i = .ok (n, i + 4) := by
  have htake : (s.drop i).take 4 = d := by rw [h, ← hd.1, List.take_left]
  have hsign : d.head? ≠ some 0x2b := by
    intro hhead
    obtain ⟨tail, rfl⟩ : ∃ tail, d = 0x2b :: tail := by
      cases d with
      | nil => simp at hhead
      | cons b tail => exact ⟨tail, by rw [Option.some.inj hhead]⟩
    exact absurd hd.2.symm (Option.some_ne_none n)
  simp only [hex, htake, if_neg hsign, if_pos hd.1, hd.2]

theorem hex4_lt (hd : Hex4 d n) : n < 0x10000 := by
  have h := hexNumber_lt hd.2
  rw [hd.1] at h
  omega

theorem toNat_ofNat_hex (hd : Hex4 d n) : (UInt32.ofNat n).toNat = n :=
  UInt32.toNat_ofNat_of_lt' ((hex4_lt hd).trans (by decide))

theorem pairCode_toNat {hi lo : ℕ} (hhi : hi < 0x400) (hlo : lo < 0x400) :
    (pairCode (0xd800 + hi) (0xdc00 + lo)).toNat = 0x10000 + hi * 0x400 + lo := by
  have hsub : ∀ a b : ℕ, UInt32.ofNat (a + b) - UInt32.ofNat a = UInt32.ofNat b := by
    intro a b
    rw [UInt32.ofNat_add, UInt32.add_comm, UInt32.add_sub_cancel]
  have hhigh : ((UInt32.ofNat (0xd800 + hi) - 0xd800) <<< 10).toNat = hi * 0x400 := by
    rw [show (0xd800 : UInt32) = UInt32.ofNat 0xd800 by rfl, hsub, UInt32.toNat_shiftLeft,
      UInt32.toNat_ofNat_of_lt' (hhi.trans (by decide)), show (10 : UInt32).toNat % 32 = 10 by rfl, Nat.shiftLeft_eq]
    omega
  have hlow : (UInt32.ofNat (0xdc00 + lo) - 0xdc00).toNat = lo := by
    rw [show (0xdc00 : UInt32) = UInt32.ofNat 0xdc00 by rfl, hsub, UInt32.toNat_ofNat_of_lt' (hlo.trans (by decide))]
  rw [pairCode, UInt32.toNat_add, UInt32.toNat_add, hhigh, hlow, show (0x10000 : UInt32).toNat = 0x10000 by rfl]
  omega

theorem unicode_scalar (hd : Hex4 d n) (hn : n < 0xd800 ∨ 0xdfff < n) (h : At s i (d ++ rest)) :
    unicode s i = .ok (Char.ofNat n, i + 4) := by
  have hlt := hex4_lt hd
  have hnot : ¬(0xd800 ≤ n ∧ n < 0xdc00) := by omega
  have hchar : fromU32 (UInt32.ofNat n) = Char.ofNat n := by
    rw [fromU32, toNat_ofNat_hex hd, if_pos (by omega)]
  simp only [unicode, hex_of hd h, bind, Except.bind, if_neg hnot, hchar]

theorem unicode_low (hd : Hex4 d n) (hn : 0xdc00 ≤ n ∧ n ≤ 0xdfff) (h : At s i (d ++ rest)) :
    unicode s i = .ok (Utf8.REPLACEMENT, i + 4) := by
  have hnot : ¬(0xd800 ≤ n ∧ n < 0xdc00) := by omega
  have hchar : fromU32 (UInt32.ofNat n) = Utf8.REPLACEMENT := by
    rw [fromU32, toNat_ofNat_hex hd, if_neg (by omega)]
  simp only [unicode, hex_of hd h, bind, Except.bind, if_neg hnot, hchar]

theorem unicode_high (hd : Hex4 d n) (hn : 0xd800 ≤ n ∧ n < 0xdc00) (hnext : ¬[BACKSLASH, 0x75] <+: rest)
    (h : At s i (d ++ rest)) : unicode s i = .ok (Utf8.REPLACEMENT, i + 4) := by
  have hrest : At s (i + 4) rest := by
    rw [← hd.1]
    exact h.drop
  have heat : eat s (i + 4) (byteString "\\u") = none := eat_missing hrest hnext
  have hchar : fromU32 (UInt32.ofNat n) = Utf8.REPLACEMENT := by
    rw [fromU32, toNat_ofNat_hex hd, if_neg (by omega)]
  simp only [unicode, hex_of hd h, bind, Except.bind, if_pos hn, heat, hchar]

theorem unicode_pair {d' : List UInt8} {hi lo : ℕ} (hd : Hex4 d (0xd800 + hi)) (hhi : hi < 0x400)
    (hd' : Hex4 d' (0xdc00 + lo)) (hlo : lo < 0x400) (h : At s i (d ++ (unit d' ++ rest))) :
    unicode s i = .ok (Char.ofNat (0x10000 + hi * 0x400 + lo), i + 10) := by
  have hrest : At s (i + 4) ([BACKSLASH, 0x75] ++ (d' ++ rest)) := by
    rw [← hd.1]
    exact h.drop
  have heat : eat s (i + 4) (byteString "\\u") = some (i + 4 + 2) := eat_found hrest
  have hfirst : 0xd800 ≤ 0xd800 + hi ∧ 0xd800 + hi < 0xdc00 := by omega
  have hchar : fromU32 (pairCode (0xd800 + hi) (0xdc00 + lo)) = Char.ofNat (0x10000 + hi * 0x400 + lo) := by
    rw [fromU32, pairCode_toNat hhi hlo, if_pos (by omega)]
  have hsecond : hex s (i + 4 + 2) = .ok (0xdc00 + lo, i + 4 + 2 + 4) := hex_of hd' hrest.drop
  simp only [unicode, hex_of hd h, bind, Except.bind, if_pos hfirst, heat, hsecond, hchar]

end

/-! ## Strings -/

section

variable {s rest out xs : List UInt8} {i fuel : ℕ}

theorem plain_of_toNat {b : UInt8} (h : 0x80 ≤ b.toNat) : plain b = true := by
  have hquote : b ≠ QUOTE := by
    rintro rfl
    exact absurd h (by decide)
  have hslash : b ≠ BACKSLASH := by
    rintro rfl
    exact absurd h (by decide)
  simp [plain, hquote, hslash]

/-- No byte of a character ends a string or begins an escape, but those characters' own. -/
theorem plain_encode {c : Char} (hc : c ≠ '"' ∧ c ≠ '\\') : ∀ b ∈ String.utf8EncodeChar c, plain b = true := by
  have hmax := Utf8.toNat_lt c
  rcases Nat.lt_or_ge 0x7f c.toNat with hlong | hshort
  · have hbyte : ∀ n, 0x80 ≤ n → n < 256 → plain (UInt8.ofNat n) = true := by
      intro n hlo hhi
      apply plain_of_toNat
      rwa [Utf8.toNat_byte hhi]
    rcases Nat.lt_or_ge 0x7ff c.toNat with htwo | htwo
    · rcases Nat.lt_or_ge 0xffff c.toNat with hthree | hthree
      · rw [Utf8.utf8_four hthree]
        simp only [List.forall_mem_cons]
        exact ⟨hbyte _ (by omega) (by omega), hbyte _ (by omega) (by omega), hbyte _ (by omega) (by omega),
          hbyte _ (by omega) (by omega), fun _ h => absurd h List.not_mem_nil⟩
      · rw [Utf8.utf8_three htwo hthree]
        simp only [List.forall_mem_cons]
        exact ⟨hbyte _ (by omega) (by omega), hbyte _ (by omega) (by omega), hbyte _ (by omega) (by omega),
          fun _ h => absurd h List.not_mem_nil⟩
    · rw [Utf8.utf8_two hlong htwo]
      simp only [List.forall_mem_cons]
      exact ⟨hbyte _ (by omega) (by omega), hbyte _ (by omega) (by omega), fun _ h => absurd h List.not_mem_nil⟩
  · rw [Utf8.utf8_one hshort]
    have hne : ∀ d : Char, c ≠ d → d.toNat < 256 → UInt8.ofNat c.toNat ≠ UInt8.ofNat d.toNat := by
      intro d hd hlt heq
      have hnat := congrArg UInt8.toNat heq
      rw [Utf8.toNat_byte (by omega), Utf8.toNat_byte hlt] at hnat
      exact hd (Char.toNat_inj.mp hnat)
    have hquote : UInt8.ofNat c.toNat ≠ QUOTE := hne '"' hc.1 (by decide)
    have hslash : UInt8.ofNat c.toNat ≠ BACKSLASH := hne '\\' hc.2 (by decide)
    simp [plain, hquote, hslash]

/-- Bytes that stand for themselves go out before the rest is read. -/
theorem loop_plain (hxs : ∀ b ∈ xs, plain b = true) (h : At s i (xs ++ rest)) {r : List Char × ℕ}
    (hr : stringLoop s fuel (i + xs.length) (out ++ xs) = .ok r) : stringLoop s fuel i out = .ok r := by
  cases fuel with
  | zero => cases hr
  | succ fuel =>
    have hrest : s.drop (i + xs.length) = rest := At.drop h
    have hdrop : (xs ++ rest).drop (xs ++ rest.takeWhile plain).length = rest.drop (rest.takeWhile plain).length := by
      rw [List.length_append, List.drop_length_add_append]
    rw [At] at h
    rw [stringLoop, hrest] at hr
    rw [stringLoop, h, List.takeWhile_append_of_pos hxs, hdrop]
    cases hnext : rest.drop (rest.takeWhile plain).length with
    | nil =>
      rw [hnext] at hr
      cases hr
    | cons b tail =>
      rw [hnext] at hr
      simp only [List.length_append, ← Nat.add_assoc, ← List.append_assoc] at hr ⊢
      exact hr

theorem loop_end {t : List Char} (h : At s i (QUOTE :: rest)) :
    stringLoop s (fuel + 1) i (Utf8.bytes t) = .ok (t, i + 1) := by
  rw [At] at h
  rw [stringLoop, h]
  have hrun : (QUOTE :: rest).takeWhile plain = [] := rfl
  simp only [hrun, List.length_nil, List.drop_zero, List.append_nil, Nat.add_zero, if_true, Utf8.fromUtf8_bytes]

theorem loop_escape {c : Char} {j : ℕ} (h : At s i (BACKSLASH :: rest)) (hc : escape s (i + 1) = .ok (c, j)) :
    stringLoop s (fuel + 1) i out = stringLoop s fuel j (out ++ String.utf8EncodeChar c) := by
  rw [At] at h
  rw [stringLoop, h]
  have hrun : (BACKSLASH :: rest).takeWhile plain = [] := rfl
  have hne : BACKSLASH ≠ QUOTE := by decide
  simp only [hrun, List.length_nil, List.drop_zero, List.append_nil, Nat.add_zero, if_neg hne, hc, bind, Except.bind]

/-- An escape of a number. -/
theorem escape_unit {r : Char × ℕ} {d : List UInt8} (h : At s i (unit d ++ rest)) (hr : unicode s (i + 2) = .ok r) :
    escape s (i + 1) = .ok r := by
  have hu : s[i + 1]? = some 0x75 := (@At.drop s [BACKSLASH] _ i h).get
  simp only [escape, hu]
  exact hr

theorem escape_short {b : UInt8} {c : Char} (hc : (b, c) ∈ shortEscapes) (h : At s i (BACKSLASH :: b :: rest)) :
    escape s (i + 1) = .ok (c, i + 2) := by
  have hb : s[i + 1]? = some b := (@At.drop s [BACKSLASH] _ i h).get
  simp only [escape, hb]
  simp only [shortEscapes, List.mem_cons, List.not_mem_nil, or_false, Prod.mk.injEq] at hc
  rcases hc with ⟨rfl, rfl⟩ | ⟨rfl, rfl⟩ | ⟨rfl, rfl⟩ | ⟨rfl, rfl⟩ | ⟨rfl, rfl⟩ | ⟨rfl, rfl⟩ | ⟨rfl, rfl⟩ | ⟨rfl, rfl⟩ <;> rfl

theorem bytes_snoc (pre : List Char) (c : Char) :
    Utf8.bytes (pre ++ [c]) = Utf8.bytes pre ++ String.utf8EncodeChar c := by
  simp [Utf8.bytes]

/-- An escape, and the rest of the string from behind it. -/
theorem loop_after_escape {esc bs after : List UInt8} {c : Char} {cs pre : List Char} {fuel : ℕ}
    (hesc : ∃ tail, esc = BACKSLASH :: tail) (hc : escape s (i + 1) = .ok (c, i + esc.length))
    (h : At s i (esc ++ bs ++ QUOTE :: after)) (hfuel : (esc ++ bs).length < fuel)
    (ih : ∀ {i fuel : ℕ} (pre : List Char), At s i (bs ++ QUOTE :: after) → bs.length < fuel →
      stringLoop s fuel i (Utf8.bytes pre) = .ok (pre ++ cs, i + bs.length + 1)) :
    stringLoop s fuel i (Utf8.bytes pre) = .ok (pre ++ c :: cs, i + (esc ++ bs).length + 1) := by
  obtain ⟨tail, rfl⟩ := hesc
  rw [List.append_assoc] at h
  rw [List.length_append, List.length_cons] at hfuel
  cases fuel with
  | zero => exact absurd hfuel (Nat.not_lt_zero _)
  | succ fuel =>
    have hrest := ih (pre ++ [c]) h.drop (show bs.length < fuel by omega)
    rw [loop_escape h hc, ← bytes_snoc, hrest, List.append_assoc, List.singleton_append, List.length_append,
      Nat.add_assoc i]

theorem Hex4.length_unit {d : List UInt8} {n : ℕ} (hd : Hex4 d n) : (unit d).length = 2 + 4 := by
  rw [unit, List.length_cons, List.length_cons, hd.1]

theorem at_unit {d : List UInt8} (h : At s i (unit d ++ rest)) : At s (i + 2) (d ++ rest) :=
  @At.drop s [BACKSLASH, 0x75] (d ++ rest) i h

/-- The quote that ends a string begins no escape. -/
theorem not_second {bs after : List UInt8} (hnext : ¬[BACKSLASH, 0x75] <+: bs) :
    ¬[BACKSLASH, 0x75] <+: bs ++ QUOTE :: after := by
  intro hp
  cases bs with
  | nil =>
    have hhead := (List.cons_prefix_cons.mp hp).1
    exact absurd hhead (by decide)
  | cons b bs =>
    obtain ⟨rfl, htail⟩ := List.cons_prefix_cons.mp hp
    cases bs with
    | nil =>
      have hhead := (List.cons_prefix_cons.mp htail).1
      exact absurd hhead (by decide)
    | cons c bs =>
      obtain ⟨rfl, -⟩ := List.cons_prefix_cons.mp htail
      exact hnext (List.prefix_append [BACKSLASH, 0x75] bs)

theorem loop_complete {bs after : List UInt8} {cs : List Char} (hcs : Chars bs cs) {i fuel : ℕ} (pre : List Char)
    (h : At s i (bs ++ QUOTE :: after)) (hfuel : bs.length < fuel) :
    stringLoop s fuel i (Utf8.bytes pre) = .ok (pre ++ cs, i + bs.length + 1) := by
  induction hcs generalizing i fuel pre with
  | nil =>
    cases fuel with
    | zero => exact absurd hfuel (Nat.not_lt_zero _)
    | succ fuel =>
      rw [List.append_nil]
      exact loop_end h
  | @raw c bs cs hc hcs ih =>
    rw [List.append_assoc] at h
    rw [List.length_append] at hfuel
    have hrest := ih (pre ++ [c]) h.drop (show bs.length < fuel by omega)
    rw [bytes_snoc, List.append_assoc, List.singleton_append, Nat.add_assoc i, ← List.length_append] at hrest
    exact loop_plain (plain_encode hc.2) h hrest
  | @short b c bs cs hc hcs ih =>
    exact @loop_after_escape s i [BACKSLASH, b] bs after c cs pre fuel ⟨_, rfl⟩ (escape_short hc h) h hfuel ih
  | @scalar d n bs cs hd hn hcs ih =>
    have hat : At s i (unit d ++ (bs ++ QUOTE :: after)) := by rwa [List.append_assoc] at h
    have hc := escape_unit hat (unicode_scalar hd hn (at_unit hat))
    rw [Nat.add_assoc i, ← hd.length_unit] at hc
    exact loop_after_escape ⟨_, rfl⟩ hc h hfuel ih
  | @pair d d' hi lo bs cs hd hhi hd' hlo hcs ih =>
    rw [← List.append_assoc] at h hfuel ⊢
    have hat : At s i (unit d ++ (unit d' ++ (bs ++ QUOTE :: after))) := by rwa [List.append_assoc, List.append_assoc] at h
    have hc := escape_unit hat (unicode_pair hd hhi hd' hlo (at_unit hat))
    have hlen : (unit d ++ unit d').length = 2 + 10 := by rw [List.length_append, hd.length_unit, hd'.length_unit]
    rw [Nat.add_assoc i, ← hlen] at hc
    exact loop_after_escape ⟨_, rfl⟩ hc h hfuel ih
  | @low d n bs cs hd hn hcs ih =>
    have hat : At s i (unit d ++ (bs ++ QUOTE :: after)) := by rwa [List.append_assoc] at h
    have hc := escape_unit hat (unicode_low hd hn (at_unit hat))
    rw [Nat.add_assoc i, ← hd.length_unit] at hc
    exact loop_after_escape ⟨_, rfl⟩ hc h hfuel ih
  | @high d n bs cs hd hn hnext hcs ih =>
    have hat : At s i (unit d ++ (bs ++ QUOTE :: after)) := by rwa [List.append_assoc] at h
    have hc := escape_unit hat (unicode_high hd hn (not_second hnext) (at_unit hat))
    rw [Nat.add_assoc i, ← hd.length_unit] at hc
    exact loop_after_escape ⟨_, rfl⟩ hc h hfuel ih

theorem string_of {bs after : List UInt8} {cs : List Char} (hcs : Chars bs cs) (h : At s i (quotes bs ++ after)) :
    string s i = .ok (cs, i + (quotes bs).length) := by
  have hat : At s i ([QUOTE] ++ (bs ++ QUOTE :: after)) := by
    rw [At] at h ⊢
    rw [h]
    simp [quotes]
  have hrest : At s (i + 1) (bs ++ QUOTE :: after) := hat.drop
  have hfuel : bs.length < s.length + 1 := by
    have hlen := congrArg List.length hrest
    rw [List.length_drop, List.length_append] at hlen
    omega
  have hlen : i + (quotes bs).length = i + 1 + bs.length + 1 := by
    simp only [quotes, List.length_cons, List.length_append, List.length_nil]
    omega
  have hloop := loop_complete hcs [] hrest hfuel
  rw [string, eat_found hat, hlen]
  exact hloop

end

/-! ## Lists -/

section

variable {s after : List UInt8} {i : ℕ} {α : Type}

/-- What ends a number. -/
def Ends (bs : List UInt8) : Prop := ∀ b, bs.head? = some b → numeric b = false

theorem ends_cons {b : UInt8} (hb : numeric b = false) : Ends (b :: after) := by
  rintro c hc
  rw [← Option.some.inj hc]
  exact hb

theorem Ws.ends {ws : List UInt8} (hws : Ws ws) (h : Ends after) : Ends (ws ++ after) := by
  cases ws with
  | nil => exact h
  | cons b ws =>
    rcases hws b List.mem_cons_self with rfl | rfl | rfl | rfl
    · exact ends_cons rfl
    · exact ends_cons rfl
    · exact ends_cons rfl
    · exact ends_cons rfl

/-- What an item of a list may begin with. -/
def Begins (bs : List UInt8) : Prop := ∃ c tail, bs = c :: tail ∧ isWhitespace c = false ∧ c ≠ 0x5d ∧ c ≠ CLOSE

theorem dark_cons {b : UInt8} (hb : isWhitespace b = false) : Dark (b :: after) := by
  rintro c hc
  rw [← Option.some.inj hc]
  exact hb

theorem Begins.dark {bs : List UInt8} (h : Begins bs) : Dark (bs ++ after) := by
  obtain ⟨c, tail, rfl, hc, -, -⟩ := h
  exact dark_cons hc

theorem Begins.pos {bs : List UInt8} (h : Begins bs) : 0 < bs.length := by
  obtain ⟨c, tail, rfl, -⟩ := h
  exact Nat.succ_pos _

/-- What closes a list. -/
def Closes (close : UInt8) : Prop := close = 0x5d ∨ close = CLOSE

theorem Closes.spec {close : UInt8} (h : Closes close) :
    isWhitespace close = false ∧ numeric close = false ∧ close ≠ 0x2c := by
  rcases h with rfl | rfl
  · exact ⟨rfl, rfl, by decide⟩
  · exact ⟨rfl, rfl, by decide⟩

/-- The reader of an item finds its value and stops right behind it. -/
def Finds (s : List UInt8) (item : ℕ → Except String (α × ℕ)) (p : Item α) : Prop :=
  ∀ i after, At s i (p.text ++ after) → Ends after → item i = .ok (p.val, i + p.text.length)

/-- An item and the white space around it. -/
theorem item_of {item : ℕ → Except String (α × ℕ)} {p : Item α} {b : UInt8} (hws : Ws p.before ∧ Ws p.behind)
    (hbegins : Begins p.text) (hp : Finds s item p) (hb : isWhitespace b = false ∧ numeric b = false)
    (h : At s i (p.before ++ (p.text ++ (p.behind ++ b :: after)))) :
    ∃ j, item (space s i) = .ok (p.val, j) ∧
      space s j = i + (p.before ++ (p.text ++ p.behind)).length ∧ At s (space s j) (b :: after) := by
  have htext : At s (i + p.before.length) (p.text ++ (p.behind ++ b :: after)) := h.drop
  have hbehind : At s (i + p.before.length + p.text.length) (p.behind ++ b :: after) := htext.drop
  have hspace := space_of_ws hbehind hws.2 (dark_cons hb.1)
  refine ⟨i + p.before.length + p.text.length, ?_, ?_, ?_⟩
  · rw [space_of_ws h hws.1 hbegins.dark]
    exact hp _ _ htext (hws.2.ends (ends_cons hb.2))
  · rw [hspace, List.length_append, List.length_append]
    omega
  · rw [hspace]
    exact hbehind.drop

theorem listLoop_of {close : UInt8} (hclose : Closes close) {item : ℕ → Except String (α × ℕ)} {ps : List (Item α)}
    (hne : ps ≠ []) (hws : ∀ p ∈ ps, Ws p.before ∧ Ws p.behind) (hbegins : ∀ p ∈ ps, Begins p.text)
    (hitem : ∀ p ∈ ps, Finds s item p) {fuel : ℕ} {out : List α} (h : At s i (joined ps ++ close :: after))
    (hfuel : (joined ps).length ≤ fuel) :
    listLoop s close item fuel (space s i) out = .ok (out ++ ps.map Item.val, i + (joined ps).length + 1) := by
  obtain ⟨hdark, hnum, hcomma⟩ := hclose.spec
  induction ps generalizing i fuel out with
  | nil => exact absurd rfl hne
  | cons p ps ih =>
    have hp : p ∈ p :: ps := List.mem_cons_self
    have hpos := (hbegins p hp).pos
    cases ps with
    | nil =>
      obtain ⟨fuel, rfl⟩ : ∃ n, fuel = n + 1 := by
        simp only [joined, List.length_append] at hfuel
        exact ⟨fuel - 1, by omega⟩
      have hat : At s i (p.before ++ (p.text ++ (p.behind ++ close :: after))) := by
        simpa only [joined, List.append_assoc] using h
      obtain ⟨j, hval, hj, hrest⟩ := item_of (hws p hp) (hbegins p hp) (hitem p hp) ⟨hdark, hnum⟩ hat
      have heat : eat s (space s j) [close] = some (space s j + 1) := @eat_found s [close] after _ hrest
      simp only [listLoop, hval, bind, Except.bind, heat]
      rw [hj]
      rfl
    | cons q ps =>
      obtain ⟨fuel, rfl⟩ : ∃ n, fuel = n + 1 := by
        simp only [joined, List.length_append] at hfuel
        exact ⟨fuel - 1, by omega⟩
      have hat : At s i (p.before ++ (p.text ++ (p.behind ++ 0x2c :: (joined (q :: ps) ++ close :: after)))) := by
        simpa only [joined, List.append_assoc, List.cons_append] using h
      obtain ⟨j, hval, hj, hrest⟩ := item_of (hws p hp) (hbegins p hp) (hitem p hp) ⟨rfl, rfl⟩ hat
      have hnot : eat s (space s j) [close] = none := by
        refine eat_missing hrest ?_
        intro hprefix
        exact hcomma (List.cons_prefix_cons.mp hprefix).1
      have heat : eat s (space s j) [0x2c] = some (space s j + 1) :=
        @eat_found s [0x2c] (joined (q :: ps) ++ close :: after) _ hrest
      have hnext : At s (space s j + 1) (joined (q :: ps) ++ close :: after) := @At.drop s [0x2c] _ _ hrest
      have hlen : (joined (q :: ps)).length ≤ fuel := by
        simp only [joined, List.length_append, List.length_cons] at hfuel ⊢
        omega
      have hloop : listLoop s close item fuel (space s (space s j + 1)) (out ++ [p.val]) =
          .ok (out ++ [p.val] ++ (q :: ps).map Item.val, space s j + 1 + (joined (q :: ps)).length + 1) :=
        ih (List.cons_ne_nil q ps) (fun r hr => hws r (List.mem_cons_of_mem p hr))
          (fun r hr => hbegins r (List.mem_cons_of_mem p hr)) (fun r hr => hitem r (List.mem_cons_of_mem p hr)) hnext hlen
      simp only [listLoop, hval, bind, Except.bind, hnot, heat, hloop]
      rw [hj]
      simp only [joined, List.length_append, List.length_cons, List.map_cons, List.append_assoc, List.singleton_append]
      congr 2
      omega

theorem joined_cons (p : Item α) (ps : List (Item α)) : ∃ rest, joined (p :: ps) = p.before ++ (p.text ++ rest) := by
  cases ps with
  | nil => exact ⟨p.behind, rfl⟩
  | cons q ps => exact ⟨p.behind ++ 0x2c :: joined (q :: ps), rfl⟩

theorem Closes.not_begins {close : UInt8} (hclose : Closes close) {bs : List UInt8} (h : Begins bs) :
    ¬[close] <+: bs ++ after := by
  obtain ⟨c, tail, rfl, -, hbracket, hbrace⟩ := h
  intro hprefix
  have hc := (List.cons_prefix_cons.mp hprefix).1
  rcases hclose with rfl | rfl
  · exact hbracket hc.symm
  · exact hbrace hc.symm

theorem list_of {b close : UInt8} (hclose : Closes close) {item : ℕ → Except String (α × ℕ)} {ps : List (Item α)}
    (hne : ps ≠ []) (hws : ∀ p ∈ ps, Ws p.before ∧ Ws p.behind) (hbegins : ∀ p ∈ ps, Begins p.text)
    (hitem : ∀ p ∈ ps, Finds s item p) (h : At s i (b :: (joined ps ++ close :: after))) :
    list s close item i = .ok (ps.map Item.val, i + (b :: (joined ps ++ [close])).length) := by
  have hopen : At s (i + 1) (joined ps ++ close :: after) := @At.drop s [b] _ i h
  have hnot : eat s (space s (i + 1)) [close] = none := by
    obtain ⟨p, tail, rfl⟩ : ∃ p tail, ps = p :: tail := List.exists_cons_of_ne_nil hne
    have hp : p ∈ p :: tail := List.mem_cons_self
    obtain ⟨rest, hrest⟩ := joined_cons p tail
    rw [hrest, List.append_assoc, List.append_assoc] at hopen
    rw [space_of_ws hopen (hws p hp).1 (hbegins p hp).dark]
    exact eat_missing hopen.drop (hclose.not_begins (hbegins p hp))
  have hlen : (joined ps).length ≤ s.length + 1 := by
    have hdrop := congrArg List.length hopen
    rw [List.length_drop, List.length_append] at hdrop
    omega
  have hloop : listLoop s close item (s.length + 1) (space s (i + 1)) [] = _ :=
    listLoop_of hclose hne hws hbegins hitem hopen hlen
  simp only [list, hnot, hloop, List.nil_append, List.length_cons, List.length_append, List.length_nil]
  congr 2
  omega

theorem list_empty {b close : UInt8} (hclose : Closes close) {item : ℕ → Except String (α × ℕ)} {ws : List UInt8}
    (hws : Ws ws) (h : At s i (b :: (ws ++ close :: after))) :
    list s close item i = .ok ([], i + (b :: (ws ++ [close])).length) := by
  have hopen : At s (i + 1) (ws ++ close :: after) := @At.drop s [b] _ i h
  have heat : eat s (i + 1 + ws.length) [close] = some (i + 1 + ws.length + 1) :=
    @eat_found s [close] after _ hopen.drop
  simp only [list, space_of_ws hopen hws (dark_cons hclose.spec.1), heat, List.length_cons, List.length_append,
    List.length_nil]
  congr 2
  omega

end

/-! ## Values -/

section

variable {read : List UInt8 → Option F} {s rest ws : List UInt8} {i fuel : ℕ}

theorem value_obj (hws : Ws ws) (h : At s i (ws ++ OPEN :: rest)) : value read s (fuel + 1) i =
    (list s CLOSE (member s (value read s fuel)) (i + ws.length)).map fun r => (.obj r.1, r.2) := by
  have hget := (At.drop h).get
  simp only [value, space_of_ws h hws (dark_cons rfl), hget, if_true]

theorem value_arr (hws : Ws ws) (h : At s i (ws ++ 0x5b :: rest)) : value read s (fuel + 1) i =
    (list s 0x5d (value read s fuel) (i + ws.length)).map fun r => (.arr r.1, r.2) := by
  have hget := (At.drop h).get
  have hobj : (0x5b : UInt8) ≠ OPEN := by decide
  simp only [value, space_of_ws h hws (dark_cons rfl), hget, if_neg hobj, if_true]

theorem value_str (hws : Ws ws) (h : At s i (ws ++ QUOTE :: rest)) : value read s (fuel + 1) i =
    (string s (i + ws.length)).map fun r => (.str r.1, r.2) := by
  have hget := (At.drop h).get
  have hobj : QUOTE ≠ OPEN := by decide
  have harr : QUOTE ≠ 0x5b := by decide
  simp only [value, space_of_ws h hws (dark_cons rfl), hget, if_neg hobj, if_neg harr, if_true]

/-- What a number begins with begins nothing else. -/
theorem digit_spec {c : UInt8} (hc : isDigit c = true ∨ c = 0x2d) :
    isWhitespace c = false ∧ c ≠ OPEN ∧ c ≠ 0x5b ∧ c ≠ QUOTE ∧ c ≠ 0x5d ∧ c ≠ CLOSE := by
  have hne : ∀ d, isDigit d = false → d ≠ 0x2d → c ≠ d := by
    rintro d hd hminus rfl
    rcases hc with hdigit | rfl
    · exact absurd (hd.symm.trans hdigit) (by decide)
    · exact hminus rfl
  have hdark : isWhitespace c = false := by
    simp [isWhitespace, hne 0x20 rfl (by decide), hne 0x09 rfl (by decide), hne 0x0a rfl (by decide),
      hne 0x0c rfl (by decide), hne 0x0d rfl (by decide)]
  exact ⟨hdark, hne _ rfl (by decide), hne _ rfl (by decide), hne _ rfl (by decide), hne _ rfl (by decide),
    hne _ rfl (by decide)⟩

theorem value_num {c : UInt8} (hc : isDigit c = true ∨ c = 0x2d) (hws : Ws ws) (h : At s i (ws ++ c :: rest)) :
    value read s (fuel + 1) i = number read s (i + ws.length) := by
  obtain ⟨hdark, hobj, harr, hstr, -, -⟩ := digit_spec hc
  have hget := (At.drop h).get
  have hnum : (isDigit c || c = 0x2d) = true := by simpa using hc
  simp only [value, space_of_ws h hws (dark_cons hdark), hget, if_neg hobj, if_neg harr, if_neg hstr, if_pos hnum]

theorem value_word {c : UInt8} (hc : c = 0x6e ∨ c = 0x74 ∨ c = 0x66) (hws : Ws ws) (h : At s i (ws ++ c :: rest)) :
    value read s (fuel + 1) i = word s (i + ws.length) := by
  obtain ⟨hdark, hobj, harr, hstr, hnum⟩ : isWhitespace c = false ∧ c ≠ OPEN ∧ c ≠ 0x5b ∧ c ≠ QUOTE ∧
      ¬(isDigit c || c = 0x2d) = true := by
    rcases hc with rfl | rfl | rfl
    · decide
    · decide
    · decide
  have hget := (At.drop h).get
  simp only [value, space_of_ws h hws (dark_cons hdark), hget, if_neg hobj, if_neg harr, if_neg hstr, if_neg hnum]

theorem number_of {bs : List UInt8} {n : F} (hbs : ∀ b ∈ bs, numeric b = true) (hends : Ends rest)
    (hn : read bs = some n) (h : At s i (bs ++ rest)) : number read s i = .ok (.num n, i + bs.length) := by
  rw [At] at h
  simp only [number, h, takeWhile_append hbs hends, hn]

theorem word_null (h : At s i (byteString "null" ++ rest)) : word (F := F) s i = .ok (.null, i + 4) := by
  have heat : eat s i (byteString "null") = some (i + 4) := eat_found h
  simp only [word, heat]

theorem word_true (h : At s i (byteString "true" ++ rest)) : word (F := F) s i = .ok (.bool true, i + 4) := by
  have hnull : eat s i (byteString "null") = none := by
    refine eat_missing h ?_
    intro hprefix
    exact absurd (List.cons_prefix_cons.mp hprefix).1 (by decide)
  have heat : eat s i (byteString "true") = some (i + 4) := eat_found h
  simp only [word, hnull, heat]

theorem word_false (h : At s i (byteString "false" ++ rest)) : word (F := F) s i = .ok (.bool false, i + 5) := by
  have hnull : eat s i (byteString "null") = none := by
    refine eat_missing h ?_
    intro hprefix
    exact absurd (List.cons_prefix_cons.mp hprefix).1 (by decide)
  have htrue : eat s i (byteString "true") = none := by
    refine eat_missing h ?_
    intro hprefix
    exact absurd (List.cons_prefix_cons.mp hprefix).1 (by decide)
  have heat : eat s i (byteString "false") = some (i + 5) := eat_found h
  simp only [word, hnull, htrue, heat]

theorem begins_of {bs : List UInt8} {v : Json F} (h : Denotes read bs v) : Begins bs := by
  cases h with
  | null => exact ⟨0x6e, _, rfl, rfl, by decide, by decide⟩
  | bool b =>
    cases b with
    | false => exact ⟨0x66, _, rfl, rfl, by decide, by decide⟩
    | true => exact ⟨0x74, _, rfl, rfl, by decide, by decide⟩
  | num hc =>
    obtain ⟨hdark, -, -, -, hbracket, hbrace⟩ := digit_spec hc
    exact ⟨_, _, rfl, hdark, hbracket, hbrace⟩
  | str => exact ⟨QUOTE, _, rfl, rfl, by decide, by decide⟩
  | emptyArr => exact ⟨0x5b, _, rfl, rfl, by decide, by decide⟩
  | arr => exact ⟨0x5b, _, rfl, rfl, by decide, by decide⟩
  | emptyObj => exact ⟨OPEN, _, rfl, rfl, by decide, by decide⟩
  | obj => exact ⟨OPEN, _, rfl, rfl, by decide, by decide⟩

theorem member_of {m : Member F} (hws : Ws m.ws₁ ∧ Ws m.ws₂) (hk : Chars m.keyText m.key)
    (hval : ∀ {i : ℕ} {after : List UInt8}, At s i (m.ws₂ ++ (m.text ++ after)) → Ends after →
      value read s fuel i = .ok (m.val, i + (m.ws₂ ++ m.text).length)) :
    Finds s (member s (value read s fuel)) m.item := by
  intro i after h hends
  have hat : At s i (quotes m.keyText ++ (m.ws₁ ++ ([0x3a] ++ (m.ws₂ ++ (m.text ++ after))))) := by
    simpa only [Member.item, List.append_assoc, List.cons_append, List.nil_append] using h
  have hstring := string_of hk hat
  have hspace := space_of_ws hat.drop hws.1 (dark_cons rfl)
  have hcolon : At s (space s (i + (quotes m.keyText).length)) ([0x3a] ++ (m.ws₂ ++ (m.text ++ after))) := by
    rw [hspace]
    exact hat.drop.drop
  have heat := eat_found hcolon
  have hlast := hval hcolon.drop hends
  simp only [member, hstring, bind, Except.bind, heat, hlast, Member.item]
  rw [hspace]
  simp only [List.length_append, List.length_cons, List.length_nil]
  congr 2
  omega

theorem length_text_le {α : Type} {ps : List (Item α)} {p : Item α} (hp : p ∈ ps) : p.text.length ≤ (joined ps).length := by
  induction ps with
  | nil => exact absurd hp List.not_mem_nil
  | cons q ps ih =>
    cases ps with
    | nil =>
      obtain rfl := List.mem_singleton.mp hp
      simp only [joined, List.length_append]
      omega
    | cons r ps =>
      simp only [joined, List.length_append, List.length_cons]
      rcases List.mem_cons.mp hp with rfl | hp
      · omega
      · have hlen := ih hp
        omega

theorem ws_nil : Ws [] := fun _ hb => absurd hb List.not_mem_nil

/-- The reader of a value finds what a text denotes. -/
theorem value_of {bs : List UInt8} {v : Json F} (h : Denotes read bs v) {fuel i : ℕ} {ws after : List UInt8} (hws : Ws ws)
    (hat : At s i (ws ++ (bs ++ after))) (hends : Ends after) (hfuel : bs.length ≤ fuel) :
    value read s fuel i = .ok (v, i + (ws ++ bs).length) := by
  obtain ⟨fuel, rfl⟩ : ∃ n, fuel = n + 1 := ⟨fuel - 1, by have := (begins_of h).pos; omega⟩
  rw [List.length_append, ← Nat.add_assoc]
  induction h generalizing fuel i ws after with
  | null =>
    rw [value_word (Or.inl rfl) hws hat]
    exact word_null hat.drop
  | bool b =>
    cases b with
    | false =>
      rw [value_word (Or.inr (Or.inr rfl)) hws hat]
      exact word_false hat.drop
    | true =>
      rw [value_word (Or.inr (Or.inl rfl)) hws hat]
      exact word_true hat.drop
  | num hc ht hn =>
    rw [value_num hc hws hat]
    exact number_of ht hends hn hat.drop
  | str hcs =>
    rw [value_str hws hat, string_of hcs hat.drop]
    rfl
  | @emptyArr ws' hws' =>
    have hlist := hat.drop
    rw [List.cons_append, List.append_assoc] at hlist
    rw [value_arr hws hat, list_empty (Or.inl rfl) hws' hlist]
    rfl
  | @arr ps hne hws' hps ih =>
    have hlist := hat.drop
    rw [List.cons_append, List.append_assoc] at hlist
    have hitem : ∀ p ∈ ps, Finds s (value read s fuel) p := by
      intro p hp j after hj hends
      have hshort := length_text_le hp
      simp only [List.length_cons, List.length_append, List.length_nil] at hfuel
      obtain ⟨fuel, rfl⟩ : ∃ n, fuel = n + 1 := ⟨fuel - 1, by have := (begins_of (hps p hp)).pos; omega⟩
      exact ih p hp ws_nil hj hends fuel (by omega)
    rw [value_arr hws hat, list_of (Or.inl rfl) hne hws' (fun p hp => begins_of (hps p hp)) hitem hlist]
    rfl
  | @emptyObj ws' hws' =>
    have hlist := hat.drop
    rw [List.cons_append, List.append_assoc] at hlist
    rw [value_obj hws hat, list_empty (Or.inr rfl) hws' hlist]
    rfl
  | @obj ms hne hws' hk hms ih =>
    have hlist := hat.drop
    rw [List.cons_append, List.append_assoc] at hlist
    have hitem : ∀ p ∈ ms.map Member.item, Finds s (member s (value read s fuel)) p := by
      intro p hp
      obtain ⟨m, hm, rfl⟩ := List.mem_map.mp hp
      have hshort := length_text_le hp
      have htext : m.text.length ≤ m.item.text.length := by
        simp only [Member.item, List.length_append, List.length_cons]
        omega
      simp only [List.length_cons, List.length_append, List.length_nil] at hfuel
      obtain ⟨fuel, rfl⟩ : ∃ n, fuel = n + 1 := ⟨fuel - 1, by have := (begins_of (hms m hm)).pos; omega⟩
      refine member_of ⟨(hws' m hm).2.1, (hws' m hm).2.2.1⟩ (hk m hm) ?_
      intro i after hi hends
      rw [List.length_append, ← Nat.add_assoc]
      exact ih m hm (hws' m hm).2.2.1 hi hends fuel (by omega)
    have hspace : ∀ p ∈ ms.map Member.item, Ws p.before ∧ Ws p.behind := by
      intro p hp
      obtain ⟨m, hm, rfl⟩ := List.mem_map.mp hp
      exact ⟨(hws' m hm).1, (hws' m hm).2.2.2⟩
    have hbegins : ∀ p ∈ ms.map Member.item, Begins p.text := by
      intro p hp
      obtain ⟨m, hm, rfl⟩ := List.mem_map.mp hp
      exact ⟨QUOTE, _, rfl, rfl, by decide, by decide⟩
    rw [value_obj hws hat, list_of (Or.inr rfl) (by simpa using hne) hspace hbegins hitem hlist, List.map_map]
    rfl

end

theorem parse_of_document {read : List UInt8 → Option F} {s : List UInt8} {v : Json F} (h : Document read s v) :
    parse read s = .ok v := by
  obtain ⟨ws, bs, ws', rfl, hws, hbs, hws'⟩ := h
  have hat : At (ws ++ (bs ++ ws')) 0 (ws ++ (bs ++ ws')) := rfl
  have hends : Ends (ws' ++ []) := hws'.ends (fun b hb => absurd hb (by simp))
  rw [List.append_nil] at hends
  have hfuel : bs.length ≤ (ws ++ (bs ++ ws')).length + 1 := by
    simp only [List.length_append]
    omega
  have hvalue := value_of hbs hws hat hends hfuel
  have hrest : At (ws ++ (bs ++ ws')) (0 + (ws ++ bs).length) (ws' ++ []) := by
    rw [List.append_nil]
    rw [← List.append_assoc] at hat ⊢
    exact hat.drop
  have hspace := space_of_ws hrest hws' (fun b hb => absurd hb (by simp))
  have hlast : 0 + (ws ++ bs).length + ws'.length = (ws ++ (bs ++ ws')).length := by
    simp only [List.length_append]
    omega
  simp only [parse, hvalue, bind, Except.bind, hspace, hlast, if_true]

/-- Every document parses to the value it denotes. -/
theorem parse_document {read : List UInt8 → Option F} {s : List UInt8} {v : Json F} (h : Document read s v) :
    parse read s = .ok v :=
  parse_of_document h

theorem parse_document_pair :
    parse (fun bs => bs.head?.map fun b => b.toNat - 0x30)
      (0x20 :: OPEN :: (byteString "\"\\ud83d\\ude00\" :[ 7]" ++ [CLOSE])) =
    .ok (.obj [([Char.ofNat 0x1f600], .arr [.num 7])]) := by
  have hkey : Chars (unit (byteString "d83d") ++ (unit (byteString "de00") ++ [])) [Char.ofNat 0x1f600] :=
    @Chars.pair _ _ 0x3d 0x200 [] [] ⟨by decide, by decide⟩ (by decide) ⟨by decide, by decide⟩ (by decide) .nil
  have hseven : Denotes (fun bs => bs.head?.map fun b => b.toNat - 0x30) [0x37] (.num 7) :=
    .num (Or.inl rfl) (List.forall_mem_singleton.mpr rfl) rfl
  have harr : Denotes (fun bs => bs.head?.map fun b => b.toNat - 0x30) (byteString "[ 7]") (.arr [.num 7]) :=
    @Denotes.arr ℕ _ [⟨[0x20], [0x37], [], .num 7⟩] (by simp) (by simp [Ws]) (by simpa using hseven)
  have hobj := @Denotes.obj ℕ (fun bs => bs.head?.map fun b => b.toNat - 0x30)
    [⟨[], _, _, [0x20], [], byteString "[ 7]", [], .arr [.num 7]⟩] (by simp) (by simp [Ws]) (by simpa using hkey)
    (by simpa using harr)
  exact parse_document ⟨[0x20], _, [], rfl, by simp [Ws], hobj, ws_nil⟩

end Chatlink.Tachyon.Json
