import Chatlink.Http.Message

/-!
# Answers in step

However the bytes are cut into reads, what is read is what was written, and what is left is what was
written behind it. So each request gets its own answer, as long as every answer is final.
-/
namespace Chatlink.Http

open Digits Split Utf8

variable {f f' : Feed} {m : Message} {ms : List Message} {reads : List (List UInt8)} {text rest sep buf : List UInt8}

/-! ## Reads -/

/-- No read comes back empty before the connection ends. -/
def Feed.Open (f : Feed) : Prop := ∀ r ∈ f.reads, r ≠ []

theorem upTo_none (h : cut sep buf = none) (r : List UInt8) (hr : r ≠ []) (hbuf : buf.length ≤ MAX_HEAD) :
    upTo sep (r :: reads) buf = upTo sep reads (buf ++ r) := by
  have hgo : ¬(MAX_HEAD < buf.length ∨ r = []) := by
    rintro (hlt | hnil)
    · omega
    · exact hr hnil
  rw [upTo, h]
  exact if_neg hgo

theorem upTo_some {left : List UInt8} (h : cut sep buf = some (text, left)) :
    upTo sep reads buf = some (text, ⟨left, reads⟩) := by
  cases reads with
  | nil => rw [upTo, h, Option.map_some]
  | cons r reads => rw [upTo, h]

/-- Where the separator stands does not depend on the reads. -/
theorem upTo_spec (hsep : sep ≠ []) (hreads : ∀ r ∈ reads, r ≠ []) (hshort : text.length + sep.length ≤ MAX_HEAD)
    (hcut : cut sep (buf ++ reads.flatten) = some (text, rest)) :
    ∃ f : Feed, upTo sep reads buf = some (text, f) ∧ f.bytes = rest ∧ f.Open := by
  induction reads generalizing buf with
  | nil =>
    rw [List.flatten_nil, List.append_nil] at hcut
    exact ⟨⟨rest, []⟩, upTo_some hcut, List.append_nil _, nofun⟩
  | cons r reads ih =>
    obtain ⟨left, hleft, hrest⟩ | ⟨hnone, hlt⟩ := cut_append hsep hcut
    · exact ⟨⟨left, r :: reads⟩, upTo_some hleft, hrest.symm, hreads⟩
    · rw [upTo_none hnone r (hreads r List.mem_cons_self) (by omega)]
      refine ih (fun r' hr' => hreads r' (List.mem_cons_of_mem r hr')) ?_
      rwa [List.append_assoc, ← List.flatten_cons]

theorem flatten_give (piece : List UInt8) : (give piece).flatten = piece := by
  cases piece with
  | nil => rfl
  | cons b bs => exact List.append_nil _

theorem exact_spec {body : List UInt8} (hreads : ∀ r ∈ reads, r ≠ []) (h : buf ++ reads.flatten = body ++ rest) :
    ∃ pieces, ∃ f : Feed, exact reads body.length buf = some (pieces, f) ∧ pieces.flatten = body ∧ f.bytes = rest ∧
      f.Open := by
  induction reads generalizing buf body with
  | nil =>
    rw [List.flatten_nil, List.append_nil] at h
    refine ⟨give (buf.take body.length), ⟨buf.drop body.length, []⟩, ?_, ?_, ?_, nofun⟩
    · rw [exact, if_pos (by rw [h, List.length_append]; omega)]
    · rw [flatten_give, h, List.take_left]
    · rw [Feed.bytes, List.flatten_nil, List.append_nil, h, List.drop_left]
  | cons r reads ih =>
    by_cases hle : body.length ≤ buf.length
    · refine ⟨give (buf.take body.length), ⟨buf.drop body.length, r :: reads⟩, ?_, ?_, ?_, hreads⟩
      · rw [exact, if_pos hle]
      · rw [flatten_give, ← List.take_append_of_le_length hle, h, List.take_left]
      · rw [Feed.bytes, ← List.drop_append_of_le_length hle, h, List.drop_left]
    · obtain ⟨body', rfl⟩ : buf <+: body :=
        List.prefix_of_prefix_length_le ⟨_, h⟩ (List.prefix_append body rest) (by omega)
      rw [List.append_assoc, List.append_cancel_left_eq, List.flatten_cons] at h
      obtain ⟨pieces, f, hexact, hpieces, hbytes, hopen⟩ :=
        ih (fun r' hr' => hreads r' (List.mem_cons_of_mem r hr')) h
      refine ⟨give buf ++ pieces, f, ?_, ?_, hbytes, hopen⟩
      · have hr : r.isEmpty = false := List.isEmpty_eq_false_iff.mpr (hreads r List.mem_cons_self)
        rw [exact, if_neg hle, hr, List.length_append, Nat.add_sub_cancel_left, hexact]
        rfl
      · rw [List.flatten_append, flatten_give, hpieces]

theorem untilClosed_spec (hreads : ∀ r ∈ reads, r ≠ []) : (untilClosed reads buf).1.flatten = buf ++ reads.flatten ∧
    (untilClosed reads buf).2.bytes = [] ∧ (untilClosed reads buf).2.Open := by
  induction reads generalizing buf with
  | nil => exact ⟨by rw [untilClosed, flatten_give, List.flatten_nil, List.append_nil], rfl, nofun⟩
  | cons r reads ih =>
    have hr : r.isEmpty = false := List.isEmpty_eq_false_iff.mpr (hreads r List.mem_cons_self)
    obtain ⟨hpieces, hbytes, hopen⟩ := @ih r fun r' hr' => hreads r' (List.mem_cons_of_mem r hr')
    rw [untilClosed, hr]
    refine ⟨?_, hbytes, hopen⟩
    exact (List.flatten_append.trans (congrArg₂ _ (flatten_give buf) hpieces))

/-! ## Lines -/

/-- Lines, one behind the other, with their ends between them. -/
def joined : List (List UInt8) → List UInt8
  | [] => []
  | [l] => l
  | l :: l' :: ls => l ++ CRLF ++ joined (l' :: ls)

theorem flatMap_line (l : List UInt8) (ls : List (List UInt8)) : (l :: ls).flatMap line = joined (l :: ls) ++ CRLF := by
  induction ls generalizing l with
  | nil => rw [List.flatMap_cons, List.flatMap_nil, List.append_nil, line, joined]
  | cons l' ls ih => rw [List.flatMap_cons, ih, line, joined, List.append_assoc, List.append_assoc, List.append_assoc]

/-- A line with something behind it does not end a head. -/
theorem cut_skip {l t text rest : List UInt8} (hl : 13 ∉ l) (ht : t.head? ≠ some 13)
    (h : cut (CRLF ++ CRLF) t = some (text, rest)) :
    cut (CRLF ++ CRLF) (l ++ CRLF ++ t) = some (l ++ CRLF ++ text, rest) := by
  induction l with
  | nil =>
    have hfirst : ¬CRLF ++ CRLF <+: 13 :: 10 :: t := by
      rintro ⟨u, hu⟩
      obtain rfl : [13, 10] ++ u = t := by simpa [CRLF] using hu
      exact ht rfl
    have hsecond : ¬CRLF ++ CRLF <+: 10 :: t := by
      rintro ⟨u, hu⟩
      simp [CRLF] at hu
    change cut (CRLF ++ CRLF) (13 :: 10 :: t) = _
    rw [cut, if_neg hfirst, cut, if_neg hsecond, h]
    rfl
  | cons b l ih =>
    have hne : ¬CRLF ++ CRLF <+: b :: (l ++ CRLF ++ t) := by
      rintro ⟨u, hu⟩
      have hb : 13 = b := by simpa [CRLF] using congrArg List.head? hu
      exact hl (hb ▸ List.mem_cons_self)
    rw [List.cons_append, List.cons_append, cut, if_neg hne, ih fun hmem => hl (List.mem_cons_of_mem b hmem)]
    rfl

/-- A head ends where its lines do. -/
theorem cut_head {l : List UInt8} {ls : List (List UInt8)} (hplain : ∀ x ∈ l :: ls, Plain x) (hsome : ∀ x ∈ ls, x ≠ []) :
    cut (CRLF ++ CRLF) ((l :: ls).flatMap line ++ CRLF ++ rest) = some (joined (l :: ls), rest) := by
  induction ls generalizing l with
  | nil =>
    have hcut : cut (CRLF ++ CRLF) (l ++ (CRLF ++ CRLF) ++ rest) = some (l, rest) :=
      cut_of_notMem (hplain l List.mem_cons_self).1
    rwa [flatMap_line, joined, List.append_assoc l]
  | cons l' ls ih =>
    have hhead : ((l' :: ls).flatMap line ++ CRLF ++ rest).head? ≠ some 13 := by
      have hplain' := hplain l' (List.mem_cons_of_mem l List.mem_cons_self)
      cases hl' : l' with
      | nil => exact absurd hl' (hsome l' List.mem_cons_self)
      | cons b bs =>
        intro h13
        have hb : b = 13 := by simpa [line] using h13
        exact hplain'.1 (by rw [hl', hb]; exact List.mem_cons_self)
    have htail := ih (fun x hx => hplain x (List.mem_cons_of_mem l hx)) fun x hx => hsome x (List.mem_cons_of_mem l' hx)
    have hskip := cut_skip (hplain l List.mem_cons_self).1 hhead htail
    rw [List.flatMap_cons, line, joined, List.append_assoc, List.append_assoc, ← List.append_assoc ((l' :: ls).flatMap line)]
    exact hskip

/-! ## Text -/

theorem lines_cons {c : Char} {cs l : List Char} {ls : List (List Char)} (hc : c ≠ '\r') (h : lines cs = l :: ls) :
    lines (c :: cs) = (c :: l) :: ls := by
  rw [lines, h]
  exact fun _ heq => absurd heq hc

theorem lines_append {l cs : List Char} (h : '\r' ∉ l) : lines (l ++ '\r' :: '\n' :: cs) = l :: lines cs := by
  induction l with
  | nil => rw [List.nil_append, lines]
  | cons c l ih =>
    have hc : c ≠ '\r' := fun heq => h (heq ▸ List.mem_cons_self)
    exact lines_cons hc (ih fun hmem => h (List.mem_cons_of_mem c hmem))

theorem lines_self {l : List Char} (h : '\r' ∉ l) : lines l = [l] := by
  induction l with
  | nil => rfl
  | cons c l ih =>
    have hc : c ≠ '\r' := fun heq => h (heq ▸ List.mem_cons_self)
    exact lines_cons hc (ih fun hmem => h (List.mem_cons_of_mem c hmem))

theorem cr_notMem {l : List UInt8} (h : Plain l) : '\r' ∉ lossy l :=
  ascii_notMem_lossy (b := 13) (by decide) (by decide) h.1

/-- The lines of a head's text. -/
theorem lines_joined {l : List UInt8} {ls : List (List UInt8)} (hplain : ∀ x ∈ l :: ls, Plain x) :
    lines (lossy (joined (l :: ls))) = (l :: ls).map lossy := by
  induction ls generalizing l with
  | nil => exact lines_self (cr_notMem (hplain l List.mem_cons_self))
  | cons l' ls ih =>
    have hcrlf : lossy (l ++ CRLF ++ joined (l' :: ls)) = lossy l ++ '\r' :: '\n' :: lossy (joined (l' :: ls)) := by
      rw [List.append_assoc]
      refine (lossy_append_ascii l (b := 13) (by decide) (10 :: joined (l' :: ls))).trans ?_
      rw [lossy_cons_ascii (b := 10) (by decide)]
      rfl
    rw [joined, hcrlf, lines_append (cr_notMem (hplain l List.mem_cons_self)),
      ih fun x hx => hplain x (List.mem_cons_of_mem l hx)]
    rfl

theorem parseHeader_line {x : Field} (hx : x.WellFormed) : parseHeader (lossy x.line) = some x.header := by
  have hcolon : ':' ∉ lossy x.name := ascii_notMem_lossy (b := 58) (by decide) (by decide) hx.colon
  have hline : lossy x.line = lossy x.name ++ [':'] ++ lossy x.value := by
    rw [Field.line, lossy_append_ascii x.name (b := 58) (by decide), List.append_assoc]
    rfl
  rw [parseHeader, hline, cut_of_notMem hcolon]
  rfl

/-! ## Numbers -/

theorem digit_ten : ∀ d < 10, digit 10 (ascii (48 + d).toUInt8) = some d := by decide

/-- A digit is neither a blank nor a semicolon, nor is it beyond ASCII. -/
theorem digit_char {radix v : ℕ} {c : Char} (h : digit radix c = some v) :
    isWhitespace c = false ∧ c ≠ ';' ∧ c.toNat < 0x80 := by
  have hrange : ('0' ≤ c ∧ c ≤ '9') ∨ ('a' ≤ c ∧ c ≤ 'z') ∨ ('A' ≤ c ∧ c ≤ 'Z') := by
    by_contra hno
    push Not at hno
    rw [digit, if_neg (by grind), if_neg (by grind), if_neg (by grind)] at h
    cases h
  have hnat : (48 ≤ c.toNat ∧ c.toNat ≤ 57) ∨ (97 ≤ c.toNat ∧ c.toNat ≤ 122) ∨ (65 ≤ c.toNat ∧ c.toNat ≤ 90) := hrange
  refine ⟨?_, ?_, by omega⟩
  · simp only [isWhitespace, List.mem_cons, List.not_mem_nil, or_false, Bool.or_eq_false_iff, decide_eq_false_iff_not]
    omega
  · rintro rfl
    revert hnat
    decide

theorem trim_append {xs ys : List Char} (hx : ∀ c ∈ xs, isWhitespace c = false) (hne : xs ≠ [])
    (hy : ∀ c ∈ ys, isWhitespace c = true) : trim (xs ++ ys) = xs := by
  obtain ⟨x, xs', rfl⟩ := List.exists_cons_of_ne_nil hne
  have hfront : (x :: xs' ++ ys).dropWhile isWhitespace = x :: xs' ++ ys := by
    rw [List.cons_append, List.dropWhile_cons_of_neg]
    rw [hx x List.mem_cons_self]
    exact Bool.false_ne_true
  have hback : ((x :: xs').reverse).dropWhile isWhitespace = (x :: xs').reverse := by
    rw [List.dropWhile_eq_self_iff]
    intro hlen
    have hlast := hx _ (List.mem_reverse.mp (List.getElem_mem hlen))
    rw [hlast]
    exact Bool.false_ne_true
  rw [trim, hfront, List.reverse_append, List.dropWhile_append_of_pos (fun c hc => hy c (List.mem_reverse.mp hc)), hback,
    List.reverse_reverse]

theorem trim_numeral {radix n : ℕ} {cs : List Char} (h : Numeral radix cs n) : trim cs = cs := by
  have htrim := @trim_append cs [] (fun c hc => ?_) h.1 nofun
  · rwa [List.append_nil] at htrim
  · obtain ⟨v, hv⟩ := digit_of_value h.2 c hc
    exact (digit_char hv).1

/-- Three digits read back. -/
theorem numeral_code {status : ℕ} (h : status < 1000) : Numeral 10 ((code status).map ascii) status := by
  refine ⟨by simp [code], ?_⟩
  have hmap : (code status).map ascii = [ascii (48 + status / 100).toUInt8, ascii (48 + status / 10 % 10).toUInt8
    , ascii (48 + status % 10).toUInt8] := rfl
  rw [hmap, value, List.foldlM_cons, digit_ten _ (by omega), Option.map_some, Option.bind_eq_bind, Option.bind_some,
    List.foldlM_cons, digit_ten _ (by omega), Option.map_some, Option.bind_eq_bind, Option.bind_some, List.foldlM_cons,
    digit_ten _ (by omega), Option.map_some, Option.bind_eq_bind, Option.bind_some, List.foldlM_nil]
  refine congrArg some ?_
  omega

/-- What is to be known of the byte of a digit. -/
def Digit (b : UInt8) : Prop := b.toNat < 0x80 ∧ ascii b ≠ ' ' ∧ b ≠ 13 ∧ b ≠ 10

theorem digit_byte : ∀ d < 10, Digit (48 + d).toUInt8 := by
  unfold Digit
  decide

theorem digit_of_mem_code {status : ℕ} (h : status < 1000) : ∀ b ∈ code status, Digit b := by
  simp only [code, List.forall_mem_cons]
  exact ⟨digit_byte _ (by omega), digit_byte _ (by omega), digit_byte _ (by omega), nofun⟩

theorem version_eq : bytes "HTTP/1.1" = [72, 84, 84, 80, 47, 49, 46, 49] := by decide

theorem parseStatus_line (hm : m.WellFormed) : parseStatus (lossy m.statusLine) = some m.status := by
  have hcode := digit_of_mem_code hm.status.2
  have hversion : ∀ b ∈ bytes "HTTP/1.1", b.toNat < 0x80 := by
    rw [version_eq]
    simp
  have hline : lossy m.statusLine = (bytes "HTTP/1.1").map ascii ++ [' '] ++ ((code m.status).map ascii ++
      ' ' :: lossy m.reason) := by
    rw [Message.statusLine, lossy_ascii_append hversion, lossy_cons_ascii (b := 32) (by decide),
      lossy_ascii_append (fun b hb => (hcode b hb).1), lossy_cons_ascii (b := 32) (by decide), List.append_assoc]
    rfl
  have hword : ((code m.status).map ascii ++ ' ' :: lossy m.reason).takeWhile (· ≠ ' ') = (code m.status).map ascii := by
    rw [List.takeWhile_append_of_pos, List.takeWhile_cons_of_neg (by decide), List.append_nil]
    intro c hc
    obtain ⟨b, hb, rfl⟩ := List.mem_map.mp hc
    exact decide_eq_true (hcode b hb).2.1
  rw [parseStatus, hline, cut_of_notMem (by decide), Option.bind_some, hword]
  exact parse_numeral (numeral_code hm.status.2) (by have := hm.status.2; omega)

/-! ## Heads -/

theorem plain_of_ascii {xs : List UInt8} (h : ∀ b ∈ xs, b ≠ 13 ∧ b ≠ 10) : Plain xs :=
  ⟨fun h13 => (h 13 h13).1 rfl, fun h10 => (h 10 h10).2 rfl⟩

theorem Plain.append {xs ys : List UInt8} (hx : Plain xs) (hy : Plain ys) : Plain (xs ++ ys) :=
  ⟨fun h => (List.mem_append.mp h).elim hx.1 hy.1, fun h => (List.mem_append.mp h).elim hx.2 hy.2⟩

theorem Plain.cons {b : UInt8} {xs : List UInt8} (hb : b ≠ 13 ∧ b ≠ 10) (hx : Plain xs) : Plain (b :: xs) :=
  ⟨fun h => (List.mem_cons.mp h).elim (fun heq => hb.1 heq.symm) hx.1,
    fun h => (List.mem_cons.mp h).elim (fun heq => hb.2 heq.symm) hx.2⟩

theorem plain_statusLine (hm : m.WellFormed) : Plain m.statusLine := by
  have hversion : Plain (bytes "HTTP/1.1") := by
    rw [version_eq]
    exact plain_of_ascii (by simp)
  have hcode : Plain (code m.status) := plain_of_ascii fun b hb => (digit_of_mem_code hm.status.2 b hb).2.2
  exact hversion.append (Plain.cons (by decide) (hcode.append (Plain.cons (by decide) hm.reason)))

theorem plain_field {x : Field} (hx : x.WellFormed) : Plain x.line :=
  hx.name.append (Plain.cons (by decide) hx.value)

/-- The head is read as what it says, and nothing behind it is touched. -/
theorem head_spec (hm : m.WellFormed) (hopen : f.Open) (hbytes : f.bytes = m.head ++ rest) :
    ∃ f', f.head = some (m.response, f') ∧ f'.bytes = rest ∧ f'.Open := by
  have hplain : ∀ x ∈ m.statusLine :: m.fields.map Field.line, Plain x := by
    intro x hx
    obtain rfl | hx := List.mem_cons.mp hx
    · exact plain_statusLine hm
    · obtain ⟨field, hfield, rfl⟩ := List.mem_map.mp hx
      exact plain_field (hm.fields field hfield)
  have hsome : ∀ x ∈ m.fields.map Field.line, x ≠ [] := by
    intro x hx
    obtain ⟨field, -, rfl⟩ := List.mem_map.mp hx
    simp [Field.line]
  have hcut := @cut_head rest _ _ hplain hsome
  have hlength : (joined (m.statusLine :: m.fields.map Field.line)).length + (CRLF ++ CRLF).length ≤ MAX_HEAD := by
    have hshort := hm.short
    rw [Message.head, flatMap_line, List.append_assoc, List.length_append] at hshort
    exact hshort
  rw [Feed.bytes, Message.head] at hbytes
  rw [← hbytes] at hcut
  obtain ⟨f', hupTo, hrest, hopen'⟩ := upTo_spec (by simp [CRLF]) hopen hlength hcut
  refine ⟨f', ?_, hrest, hopen'⟩
  have hheaders : ((m.fields.map Field.line).map lossy).filterMap parseHeader = m.fields.map Field.header := by
    rw [List.map_map, List.filterMap_map, ← List.filterMap_eq_map]
    refine List.filterMap_congr fun x hx => ?_
    exact parseHeader_line (hm.fields x hx)
  have hparse : parseHead (lossy (joined (m.statusLine :: m.fields.map Field.line))) = some m.response := by
    rw [parseHead, lines_joined hplain, List.map_cons]
    dsimp only
    rw [parseStatus_line hm, hheaders]
    rfl
  rw [Feed.head, hupTo, Option.bind_eq_bind, Option.bind_some]
  dsimp only
  rw [hparse]
  rfl

/-! ## Bodies -/

theorem line_spec (hplain : Plain text) (hshort : (line text).length ≤ MAX_HEAD) (hopen : f.Open)
    (hbytes : f.bytes = line text ++ rest) : ∃ f', f.line = some (lossy text, f') ∧ f'.bytes = rest ∧ f'.Open := by
  have hcut : cut CRLF (f.buf ++ f.reads.flatten) = some (text, rest) := by
    rw [← Feed.bytes, hbytes]
    exact cut_of_notMem hplain.1
  rw [line, List.length_append] at hshort
  obtain ⟨f', hupTo, hrest, hopen'⟩ := upTo_spec (by simp [CRLF]) hopen hshort hcut
  refine ⟨f', ?_, hrest, hopen'⟩
  rw [Feed.line, hupTo]
  rfl

theorem plain_nil : Plain [] := ⟨nofun, nofun⟩

theorem short_nil : (line []).length ≤ MAX_HEAD := by decide

theorem trailers_spec {ts : List (List UInt8)} {fuel : ℕ} (hts : ∀ t ∈ ts, Trailer t) (hfuel : ts.length < fuel)
    (hopen : f.Open) (hbytes : f.bytes = ts.flatMap line ++ CRLF ++ rest) :
    ∃ f', trailers fuel f = some f' ∧ f'.bytes = rest ∧ f'.Open := by
  induction ts generalizing f fuel with
  | nil =>
    obtain ⟨fuel, rfl⟩ := Nat.exists_eq_add_of_lt hfuel
    obtain ⟨f', hline, hrest, hopen'⟩ := line_spec plain_nil short_nil hopen hbytes
    refine ⟨f', ?_, hrest, hopen'⟩
    rw [trailers, hline]
    rfl
  | cons t ts ih =>
    obtain ⟨fuel, rfl⟩ : ∃ n, fuel = n + 1 := ⟨fuel - 1, by rw [List.length_cons] at hfuel; omega⟩
    have ht := hts t List.mem_cons_self
    rw [List.flatMap_cons, List.append_assoc, List.append_assoc] at hbytes
    obtain ⟨f₁, hline, hrest, hopen₁⟩ := line_spec ht.plain ht.short hopen hbytes
    obtain ⟨f', htrailers, hrest', hopen'⟩ := ih (fun t' ht' => hts t' (List.mem_cons_of_mem t ht'))
      (Nat.lt_of_succ_lt_succ hfuel) hopen₁ (hrest.trans (List.append_assoc _ _ _).symm)
    refine ⟨f', ?_, hrest', hopen'⟩
    have hsome : (lossy t).isEmpty = false := List.isEmpty_eq_false_iff.mpr fun h => ht.some (lossy_eq_nil.mp h)
    rw [trailers, hline]
    dsimp only
    rw [hsome]
    exact htrailers

section Size

variable {size ext : List UInt8} {n : ℕ}

theorem size_byte (h : SizeLine size ext n) {b : UInt8} (hb : b ∈ size) :
    isWhitespace (ascii b) = false ∧ ascii b ≠ ';' ∧ b.toNat < 0x80 := by
  obtain ⟨v, hv⟩ := digit_of_value h.digits.2 (ascii b) (List.mem_map_of_mem hb)
  obtain ⟨hblank, hsemi, hascii⟩ := digit_char hv
  exact ⟨hblank, hsemi, by rwa [toNat_ascii] at hascii⟩

theorem plain_size (h : SizeLine size ext n) : Plain (size ++ ext) := by
  refine Plain.append (plain_of_ascii fun b hb => ?_) h.plain
  have hblank := (size_byte h hb).1
  refine ⟨?_, ?_⟩
  all_goals
    rintro rfl
    exact absurd hblank (by decide)

/-- What stands in front of the first semicolon of an extension are blanks. -/
theorem blanks (h : SizeLine size ext n) : ∀ c ∈ (lossy ext).takeWhile (· ≠ ';'), isWhitespace c = true := by
  have hascii : ∀ b ∈ ext.takeWhile (· ≠ 59), b.toNat < 0x80 ∧ ascii b ≠ ';' ∧ isWhitespace (ascii b) = true := by
    intro b hb
    obtain rfl | rfl := h.blank b hb
    all_goals exact ⟨by decide, by decide, by decide⟩
  have htake : (lossy ext).takeWhile (· ≠ ';') = (ext.takeWhile (· ≠ 59)).map ascii := by
    conv_lhs => rw [← List.takeWhile_append_dropWhile (p := (· ≠ 59)) (l := ext)]
    have hrest : (lossy (ext.dropWhile (· ≠ 59))).takeWhile (· ≠ ';') = [] := by
      cases hdrop : ext.dropWhile (· ≠ 59) with
      | nil => rfl
      | cons b bs =>
        have hhead := List.head?_dropWhile_not (· ≠ 59) ext
        rw [hdrop] at hhead
        obtain rfl : b = 59 := by simpa using hhead
        rw [lossy_cons_ascii (by decide), List.takeWhile_cons_of_neg (by decide)]
    rw [lossy_ascii_append fun b hb => (hascii b hb).1, List.takeWhile_append_of_pos, hrest, List.append_nil]
    · intro c hc
      obtain ⟨b, hb, rfl⟩ := List.mem_map.mp hc
      exact decide_eq_true (hascii b hb).2.1
  rw [htake]
  intro c hc
  obtain ⟨b, hb, rfl⟩ := List.mem_map.mp hc
  exact (hascii b hb).2.2

/-- The number in front of a chunk is read, whatever the extension says. -/
theorem parse_size (h : SizeLine size ext n) (hn : n < 2 ^ 64) :
    parse 16 64 (trim ((lossy (size ++ ext)).takeWhile (· ≠ ';'))) = some n := by
  have hchars : ∀ c ∈ size.map ascii, isWhitespace c = false ∧ c ≠ ';' := by
    intro c hc
    obtain ⟨b, hb, rfl⟩ := List.mem_map.mp hc
    exact ⟨(size_byte h hb).1, (size_byte h hb).2.1⟩
  rw [lossy_ascii_append fun b hb => (size_byte h hb).2.2, List.takeWhile_append_of_pos,
    trim_append (fun c hc => (hchars c hc).1) h.digits.1 (blanks h)]
  · exact parse_numeral h.digits hn
  · exact fun c hc => decide_eq_true (hchars c hc).2

end Size

/-- A chunked body is read chunk by chunk, with its trailers. -/
theorem chunked_spec {cs : List Chunk} {zero ext : List UInt8} {ts : List (List UInt8)} {fuel : ℕ}
    (hcs : ∀ c ∈ cs, c.WellFormed) (hzero : SizeLine zero ext 0) (hts : ∀ t ∈ ts, Trailer t)
    (hfuel : cs.length + ts.length + 1 < fuel) (hopen : f.Open)
    (hbytes : f.bytes = (Body.chunked cs zero ext ts).wire ++ rest) :
    ∃ pieces f', chunked fuel f = some (pieces, f') ∧ pieces.flatten = cs.flatMap Chunk.data ∧ f'.bytes = rest ∧
      f'.Open := by
  obtain ⟨fuel, rfl⟩ : ∃ n, fuel = n + 1 := ⟨fuel - 1, by omega⟩
  induction cs generalizing f fuel with
  | nil =>
    rw [Body.wire, List.flatMap_nil, List.nil_append, List.append_assoc, List.append_assoc] at hbytes
    obtain ⟨f₁, hline, hrest, hopen₁⟩ := line_spec (plain_size hzero) hzero.short hopen hbytes
    rw [← List.append_assoc] at hrest
    have hmore : ts.length < fuel := by
      rw [List.length_nil] at hfuel
      omega
    obtain ⟨f', htrailers, hrest', hopen'⟩ := trailers_spec hts hmore hopen₁ hrest
    refine ⟨[], f', ?_, rfl, hrest', hopen'⟩
    simp only [chunked, hline, parse_size hzero (by decide), htrailers, Option.bind_eq_bind, Option.bind_some, if_true,
      Option.pure_def]
  | cons c cs ih =>
    have hc := hcs c List.mem_cons_self
    rw [List.length_cons] at hfuel
    obtain ⟨fuel, rfl⟩ : ∃ n, fuel = n + 1 := ⟨fuel - 1, by omega⟩
    have hwire : (Body.chunked (c :: cs) zero ext ts).wire ++ rest =
        line (c.size ++ c.ext) ++ (c.data ++ (line [] ++ ((Body.chunked cs zero ext ts).wire ++ rest))) := by
      simp only [Body.wire, Chunk.wire, line, List.flatMap_cons, List.append_assoc, List.nil_append]
    rw [hwire] at hbytes
    obtain ⟨f₁, hline, hrest₁, hopen₁⟩ := line_spec (plain_size hc.sized) hc.sized.short hopen hbytes
    obtain ⟨pieces, f₂, hexact, hpieces, hrest₂, hopen₂⟩ := exact_spec hopen₁ hrest₁
    obtain ⟨f₃, hline₃, hrest₃, hopen₃⟩ := line_spec plain_nil short_nil hopen₂ hrest₂
    obtain ⟨pieces', f', hchunked, hpieces', hrest', hopen'⟩ := ih (fun c' hc' => hcs c' (List.mem_cons_of_mem c hc'))
      hopen₃ hrest₃ fuel (by omega)
    refine ⟨pieces ++ pieces', f', ?_, ?_, hrest', hopen'⟩
    · have hne : c.data.length ≠ 0 := fun h => hc.some (List.eq_nil_of_length_eq_zero h)
      rw [chunked]
      simp only [hline, parse_size hc.sized hc.length, hexact, hline₃, hchunked, Option.bind_eq_bind, Option.bind_some,
        if_neg hne, Option.pure_def]
    · rw [List.flatten_append, hpieces, hpieces', List.flatMap_cons]

/-- A chunked body has fewer lines than bytes. -/
theorem lines_le_wire (cs : List Chunk) (zero ext : List UInt8) (ts : List (List UInt8)) :
    cs.length + ts.length + 1 ≤ (Body.chunked cs zero ext ts).wire.length := by
  have hflat {β : Type} (g : β → List UInt8) (hg : ∀ b, 0 < (g b).length) (bs : List β) :
      bs.length ≤ (bs.flatMap g).length := by
    induction bs with
    | nil => exact Nat.zero_le _
    | cons b bs ih =>
      have hb := hg b
      rw [List.flatMap_cons, List.length_cons, List.length_append]
      omega
  have hline (text : List UInt8) : 0 < (line text).length := by simp [line, CRLF]
  have hchunks := hflat Chunk.wire (fun c => by rw [Chunk.wire, List.length_append]; have := hline c.data; omega) cs
  have htrailers := hflat line hline ts
  have hlast := hline (zero ++ ext)
  simp only [Body.wire, List.length_append]
  omega

/-- The body is read in the framing that the head tells, and nothing behind it is touched. -/
theorem body_spec (hm : m.WellFormed) (hsome : bodyless m.status = false) (hopen : f.Open)
    (hbytes : f.bytes = m.body.wire ++ rest) (hend : (∃ data, m.body = .toEnd data) → rest = []) :
    ∃ pieces f' ended, f.body m.response = some (pieces, f', ended) ∧ pieces.flatten = m.body.data ∧ f'.bytes = rest ∧
      f'.Open := by
  have hframed := hm.framed
  rw [Message.Framed] at hframed
  cases hbody : m.body with
  | none =>
    rw [hbody] at hframed
    rw [hsome] at hframed
    cases hframed
  | counted data =>
    rw [hbody] at hframed hbytes
    obtain ⟨-, hte, hlength, v, hcl, hv⟩ := hframed
    have hdata : f.buf ++ f.reads.flatten = data ++ rest := hbytes
    obtain ⟨pieces, f', hexact, hpieces, hrest, hopen'⟩ := exact_spec hopen hdata
    refine ⟨pieces, f', false, ?_, hpieces, hrest, hopen'⟩
    have hlen : m.response.length = some data.length := by
      rw [Response.length, hcl, Option.bind_some, trim_numeral hv, parse_numeral hv hlength]
    rw [Feed.body, hte, Option.any_none, if_neg Bool.false_ne_true, hlen]
    dsimp only
    rw [hexact]
    rfl
  | chunked cs zero ext ts =>
    rw [hbody] at hframed hbytes
    obtain ⟨-, ⟨v, hte, hv⟩, hcs, hzero, hts⟩ := hframed
    have hfuel : cs.length + ts.length + 1 < f.bytes.length + 1 := by
      have hlines := lines_le_wire cs zero ext ts
      rw [hbytes, List.length_append]
      omega
    obtain ⟨pieces, f', hchunked, hpieces, hrest, hopen'⟩ := chunked_spec hcs hzero hts hfuel hopen hbytes
    refine ⟨pieces, f', false, ?_, hpieces, hrest, hopen'⟩
    rw [Feed.body, hte, Option.any_some, if_pos (decide_eq_true hv), hchunked]
    rfl
  | toEnd data =>
    rw [hbody] at hframed hbytes
    obtain ⟨-, hte, hcl⟩ := hframed
    obtain rfl := hend ⟨data, hbody⟩
    obtain ⟨hpieces, hrest, hopen'⟩ := @untilClosed_spec _ f.buf hopen
    refine ⟨_, _, true, ?_, hpieces.trans ?_, hrest, hopen'⟩
    · rw [Feed.body, hte, Option.any_none, if_neg Bool.false_ne_true, Response.length, hcl]
      rfl
    · rw [← Feed.bytes, hbytes, List.append_nil]
      rfl

/-! ## Answers -/

/-- One request gets the answer that is next, and the rest is left. -/
theorem get_spec (hm : m.WellFormed) (hopen : f.Open) (hbytes : f.bytes = m.wire ++ rest)
    (hend : (∃ data, m.body = .toEnd data) → rest = []) (closing : Bool) :
    ∃ pieces f' closing', Connection.get ⟨f, closing⟩ = some ((m.response, pieces), ⟨f', closing'⟩) ∧
      pieces.flatten = m.handed ∧ f'.bytes = rest ∧ f'.Open := by
  rw [Message.wire, List.append_assoc] at hbytes
  obtain ⟨f₁, hhead, hrest₁, hopen₁⟩ := head_spec hm hopen hbytes
  cases hsome : bodyless m.status with
  | true =>
    have hnone : m.body = .none := by
      have hframed := hm.framed
      rw [Message.Framed] at hframed
      cases hbody : m.body with
      | none => rfl
      | counted data =>
        rw [hbody] at hframed
        exact absurd (hsome.symm.trans hframed.1) nofun
      | chunked cs zero ext ts =>
        rw [hbody] at hframed
        exact absurd (hsome.symm.trans hframed.1) nofun
      | toEnd data =>
        rw [hbody] at hframed
        exact absurd (hsome.symm.trans hframed.1) nofun
    have hstatus : bodyless m.response.status = true := hsome
    refine ⟨[], f₁, m.response.closes, ?_, ?_, ?_, hopen₁⟩
    · simp only [Connection.get, hhead, hstatus, Option.bind_eq_bind, Option.bind_some, if_true, Option.pure_def]
    · rw [Message.handed, hnone]
      exact (ite_self _).symm
    · rw [hrest₁, hnone]
      rfl
  | false =>
    obtain ⟨pieces, f', ended, hbody, hpieces, hrest, hopen'⟩ := body_spec hm hsome hopen₁ hrest₁ hend
    have hstatus : bodyless m.response.status = false := hsome
    refine ⟨if Hub.isRedirect m.status then [] else pieces, f', m.response.closes || ended, ?_, ?_, hrest, hopen'⟩
    · simp only [Connection.get, hhead, hstatus, hbody, Option.bind_eq_bind, Option.bind_some, Bool.false_eq_true, if_false,
        Option.pure_def]
      rfl
    · rw [Message.handed, ← hpieces]
      split_ifs <;> rfl

/-- Requests get their answers in order, however the bytes were cut into reads. -/
theorem gets_spec {c : Connection} (hms : ∀ m ∈ ms, m.WellFormed) (hlast : Delimited ms rest) (hopen : c.feed.Open)
    (hbytes : c.feed.bytes = ms.flatMap Message.wire ++ rest) :
    ∃ answers c', c.gets ms.length = some (answers, c') ∧ answers.map Prod.fst = ms.map Message.response ∧
      answers.map (fun a => a.2.flatten) = ms.map Message.handed ∧ c'.feed.bytes = rest ∧ c'.feed.Open := by
  induction ms generalizing c with
  | nil => exact ⟨[], c, rfl, rfl, rfl, hbytes, hopen⟩
  | cons m ms ih =>
    rw [List.flatMap_cons, List.append_assoc] at hbytes
    have hend : (∃ data, m.body = .toEnd data) → ms.flatMap Message.wire ++ rest = [] := by
      intro h
      obtain ⟨rfl, rfl⟩ := hlast.1 h
      rfl
    obtain ⟨pieces, f', closing', hget, hpieces, hrest, hopen'⟩ :=
      get_spec (hms m List.mem_cons_self) hopen hbytes hend c.closing
    obtain ⟨answers, c', hgets, hresponses, hbodies, hrest', hopen''⟩ :=
      ih (c := ⟨f', closing'⟩) (fun m' hm' => hms m' (List.mem_cons_of_mem m hm')) hlast.2 hopen' hrest
    refine ⟨((m.response, pieces)) :: answers, c', ?_, ?_, ?_, hrest', hopen''⟩
    · simp only [List.length_cons, Connection.gets, hget, hgets, Option.bind_eq_bind, Option.bind_some, Option.pure_def]
    · rw [List.map_cons, List.map_cons, hresponses]
    · rw [List.map_cons, List.map_cons, hbodies, hpieces]

theorem Delimited.take {xs ys : List Message} (h : Delimited (xs ++ ys) rest) :
    Delimited xs (ys.flatMap Message.wire ++ rest) := by
  induction xs with
  | nil => trivial
  | cons m xs ih =>
    refine ⟨fun hend => ?_, ih h.2⟩
    obtain ⟨hnil, hrest⟩ := h.1 hend
    obtain ⟨hxs, hys⟩ := List.append_eq_nil_iff.mp hnil
    exact ⟨hxs, by rw [hys, hrest]; rfl⟩

/-- The answers of a server without interim responses: however their bytes are cut into reads, after `k` requests
the first `k` responses were returned, each with its body, and the buffer is at the start of the next. -/
theorem answers_in_step {c : Connection} (hms : ∀ m ∈ ms, m.WellFormed ∧ 200 ≤ m.status) (hlast : Delimited ms rest)
    (hopen : c.feed.Open) (hbytes : c.feed.bytes = ms.flatMap Message.wire ++ rest) {k : ℕ} (hk : k ≤ ms.length) :
    ∃ answers c', c.gets k = some (answers, c') ∧
      answers.map (fun a => (a.1, a.2.flatten)) = (ms.take k).map (fun m => (m.response, m.handed)) ∧
      c'.feed.bytes = (ms.drop k).flatMap Message.wire ++ rest := by
  have hsplit : ms.take k ++ ms.drop k = ms := List.take_append_drop k ms
  have hwires : c.feed.bytes = (ms.take k).flatMap Message.wire ++ ((ms.drop k).flatMap Message.wire ++ rest) := by
    rw [hbytes, ← List.append_assoc, ← List.flatMap_append, hsplit]
  rw [← hsplit] at hlast
  obtain ⟨answers, c', hgets, hresponses, hbodies, hrest, -⟩ :=
    gets_spec (fun m hm => (hms m (List.mem_of_mem_take hm)).1) hlast.take hopen hwires
  rw [List.length_take_of_le hk] at hgets
  refine ⟨answers, c', hgets, ?_, hrest⟩
  have hzip := congrArg₂ List.zip hresponses hbodies
  rwa [List.zip_map', List.zip_map'] at hzip

/-! ## Some answers -/

instance (text : List UInt8) : Decidable (Plain text) := inferInstanceAs (Decidable (_ ∧ _))

/-- Five bytes in two chunks, with an extension and a trailer. -/
def abcde : Message :=
  { status := 200, reason := bytes "OK", fields := [⟨bytes "Transfer-Encoding", bytes " chunked"⟩]
    body := .chunked [⟨bytes "3", [], bytes "abc"⟩, ⟨bytes "02", bytes " ;x=1", bytes "de"⟩] (bytes "0") [] [bytes "X: y"] }

/-- A redirect with a body. -/
def found : Message :=
  { status := 302, reason := bytes "Found", fields := [⟨bytes "Location", bytes " /file"⟩, ⟨bytes "Content-Length", bytes " 3"⟩]
    body := .counted (bytes "xyz") }

theorem abcde_wellFormed : abcde.WellFormed where
  status := by decide
  reason := by decide
  fields x hx := by
    obtain rfl := List.mem_singleton.mp hx
    exact ⟨by decide, by decide, by decide⟩
  short := by decide
  framed := by
    refine ⟨by decide, ⟨"chunked".toList, by decide, by decide⟩, fun c hc => ?_,
      ⟨⟨by decide, by decide⟩, by decide, nofun, by decide⟩, fun x hx => ?_⟩
    · obtain rfl | hc := List.mem_cons.mp hc
      · exact ⟨⟨⟨by decide, by decide⟩, by decide, nofun, by decide⟩, by decide, by decide⟩
      · obtain rfl := List.mem_singleton.mp hc
        refine ⟨⟨⟨by decide, by decide⟩, by decide, fun b hb => .inl ?_, by decide⟩, by decide, by decide⟩
        exact List.mem_singleton.mp hb
    · obtain rfl := List.mem_singleton.mp hx
      exact ⟨by decide, by decide, by decide⟩

theorem found_wellFormed : found.WellFormed where
  status := by decide
  reason := by decide
  fields x hx := by
    obtain rfl | hx := List.mem_cons.mp hx
    · exact ⟨by decide, by decide, by decide⟩
    · obtain rfl := List.mem_singleton.mp hx
      exact ⟨by decide, by decide, by decide⟩
  short := by decide
  framed := ⟨by decide, by decide, by decide, "3".toList, by decide, by decide, by decide⟩

/-- Two answers that come in one read and the rest of it. -/
theorem abcde_found_read : ∃ answers c',
    Connection.gets 1 ⟨⟨[], [abcde.wire ++ found.wire.take 20, found.wire.drop 20]⟩, false⟩ = some (answers, c') ∧
      answers.map (fun a => (a.1, a.2.flatten)) = [(abcde.response, bytes "abcde")] ∧ c'.feed.bytes = found.wire := by
  have hms : ∀ m ∈ [abcde, found], m.WellFormed ∧ 200 ≤ m.status := by
    intro m hm
    obtain rfl | hm := List.mem_cons.mp hm
    · exact ⟨abcde_wellFormed, by decide⟩
    · obtain rfl := List.mem_singleton.mp hm
      exact ⟨found_wellFormed, by decide⟩
  have hlast : Delimited [abcde, found] [] := ⟨nofun, nofun, trivial⟩
  have hopen : Feed.Open ⟨[], [abcde.wire ++ found.wire.take 20, found.wire.drop 20]⟩ := by
    intro r hr
    obtain rfl | hr := List.mem_cons.mp hr
    · decide
    · obtain rfl := List.mem_singleton.mp hr
      decide
  have hbytes : Feed.bytes ⟨[], [abcde.wire ++ found.wire.take 20, found.wire.drop 20]⟩ =
      [abcde, found].flatMap Message.wire ++ [] := by
    simp only [Feed.bytes, List.nil_append, List.flatten_cons, List.flatten_nil, List.append_nil, List.append_assoc,
      List.take_append_drop, List.flatMap_cons, List.flatMap_nil]
  obtain ⟨answers, c', hgets, hanswers, hrest⟩ :=
    answers_in_step (c := ⟨_, false⟩) (k := 1) hms hlast hopen hbytes (Nat.le_succ 1)
  have hhanded : abcde.handed = bytes "abcde" := by decide
  refine ⟨answers, c', hgets, ?_, ?_⟩
  · rw [hanswers, List.take_succ_cons, List.take_zero, List.map_cons, List.map_nil, hhanded]
  · rw [hrest, List.drop_succ_cons, List.drop_zero, List.flatMap_cons, List.flatMap_nil, List.append_nil, List.append_nil]

/-- An interim response is returned in place of the final one, which is left for the next request; and the
body of a redirect is not handed over. -/
theorem interim_returned :
    (Connection.gets 1 ⟨⟨[], [bytes "HTTP/1.1 103 Early Hints\r\n\r\nHTTP/1.1 204 No Content\r\n\r\n"]⟩, false⟩).map
        (fun p => (p.1.map fun a => a.1.status, p.2.feed.bytes)) =
      some ([103], bytes "HTTP/1.1 204 No Content\r\n\r\n") ∧
    (Connection.gets 1 ⟨⟨[], [found.wire]⟩, false⟩).map (fun p => p.1.map fun a => (a.1.status, a.2.flatten)) =
      some [(302, [])] ∧ found.body.data = bytes "xyz" := by
  decide +kernel

end Chatlink.Http
