import Chatlink.Tachyon.JsonText

/-!
# Round trips

What a value is written as denotes that value, so a reader gets it back. Of its numbers this takes only that each is
shown in the bytes of a number and read back from them, as every finite one is.
-/
namespace Chatlink.Tachyon.Json

open Ascii

variable {F : Type}

/-- Every number of a value. -/
inductive Numbers (P : F → Prop) : Json F → Prop where
  | null : Numbers P .null
  | bool (b : Bool) : Numbers P (.bool b)
  | num {n : F} (h : P n) : Numbers P (.num n)
  | str (s : List Char) : Numbers P (.str s)
  | arr {xs : List (Json F)} (h : ∀ x ∈ xs, Numbers P x) : Numbers P (.arr xs)
  | obj {fields : List (List Char × Json F)} (h : ∀ f ∈ fields, Numbers P f.2) : Numbers P (.obj fields)

/-- A number is shown as a number and read back. -/
structure Shown (shown : F → List Char) (read : List UInt8 → Option F) (n : F) : Prop where
  begins : ∃ c t, Utf8.bytes (shown n) = c :: t ∧ (isDigit c = true ∨ c = 0x2d)
  numeric : ∀ b ∈ Utf8.bytes (shown n), numeric b = true
  back : read (Utf8.bytes (shown n)) = some n

/-! ## Strings -/

theorem bytes_append (s t : List Char) : Utf8.bytes (s ++ t) = Utf8.bytes s ++ Utf8.bytes t := by
  simp [Utf8.bytes]

theorem hexDigit_ascii {d : ℕ} (hd : d < 16) : Utf8.bytes [Char.ofNat (hexDigit d).toNat] = [hexDigit d] := by
  have h : ∀ d < 16, Utf8.bytes [Char.ofNat (hexDigit d).toNat] = [hexDigit d] := by decide
  exact h d hd

theorem bytes_hexDigits (w n : ℕ) :
    Utf8.bytes ((hexDigits w n).map fun b => Char.ofNat b.toNat) = hexDigits w n := by
  induction w generalizing n with
  | zero => rfl
  | succ w ih =>
    rw [hexDigits, List.map_append, bytes_append, ih, List.map_singleton, hexDigit_ascii (Nat.mod_lt n (by decide))]

theorem chars_quotedChar {c : Char} {bs : List UInt8} {cs : List Char} (h : Chars bs cs) :
    Chars (Utf8.bytes (quotedChar c) ++ bs) (c :: cs) := by
  unfold quotedChar
  split_ifs with hmark hline hreturn htab hcontrol
  · rcases hmark with rfl | rfl
    · exact @Chars.short 0x22 '"' bs cs (by decide) h
    · exact @Chars.short 0x5c '\\' bs cs (by decide) h
  · rw [hline]
    exact @Chars.short 0x6e '\n' bs cs (by decide) h
  · rw [hreturn]
    exact @Chars.short 0x72 '\r' bs cs (by decide) h
  · rw [htab]
    exact @Chars.short 0x74 '\t' bs cs (by decide) h
  · have hd : Hex4 (hexDigits 4 c.toNat) c.toNat :=
      ⟨length_hexDigits 4 c.toNat, hexNumber_hexDigits (hcontrol.trans (by decide))⟩
    have hunit := Chars.scalar hd (Or.inl (hcontrol.trans (by decide))) h
    rw [Char.ofNat_toNat] at hunit
    rw [Utf8.bytes_cons, Utf8.bytes_cons, bytes_hexDigits]
    exact hunit
  · rw [Utf8.bytes_cons, Utf8.bytes_nil, List.append_nil]
    exact .raw ⟨by omega, not_or.mp hmark⟩ h

theorem chars_quoted (s : List Char) : Chars (Utf8.bytes (s.flatMap quotedChar)) s := by
  induction s with
  | nil => exact .nil
  | cons c s ih =>
    rw [List.flatMap_cons, bytes_append]
    exact chars_quotedChar ih

theorem bytes_quoted (s : List Char) : Utf8.bytes (quoted s) = quotes (Utf8.bytes (s.flatMap quotedChar)) := by
  rw [quoted, Utf8.bytes_cons, bytes_append]
  rfl

/-! ## Lists -/

section

variable {α : Type}

/-- Texts as the items of a list, the first behind `ws`. -/
def pieces (ws : List UInt8) : List (List Char × α) → List (Item α)
  | [] => []
  | (t, x) :: ts => ⟨ws, Utf8.bytes t, [], x⟩ :: pieces [0x20] ts

theorem pieces_val (ws : List UInt8) (ts : List (List Char × α)) : (pieces ws ts).map Item.val = ts.map Prod.snd := by
  induction ts generalizing ws with
  | nil => rfl
  | cons t ts ih => rw [pieces, List.map_cons, List.map_cons, ih]

theorem joined_pieces (ws : List UInt8) (t : List Char × α) (ts : List (List Char × α)) :
    joined (pieces ws (t :: ts)) = ws ++ Utf8.bytes (List.intercalate [',', ' '] ((t :: ts).map Prod.fst)) := by
  induction ts generalizing ws t with
  | nil => simp [pieces, joined, List.intercalate]
  | cons u ts ih =>
    have hcomma : Utf8.bytes [',', ' '] = [0x2c, 0x20] := by decide
    have hjoin : List.intercalate [',', ' '] ((t :: u :: ts).map Prod.fst) =
        t.1 ++ ([',', ' '] ++ List.intercalate [',', ' '] ((u :: ts).map Prod.fst)) := by
      simp [List.intercalate]
    have hstep : joined (pieces ws (t :: u :: ts)) =
        ws ++ (Utf8.bytes t.1 ++ ([] ++ 0x2c :: joined (pieces [0x20] (u :: ts)))) := rfl
    rw [hstep, ih [0x20] u, hjoin, bytes_append, bytes_append, hcomma]
    rfl

theorem mem_pieces {ws : List UInt8} {ts : List (List Char × α)} {p : Item α} (hp : p ∈ pieces ws ts) :
    (p.before = ws ∨ p.before = [0x20]) ∧ p.behind = [] ∧ ∃ t ∈ ts, p.text = Utf8.bytes t.1 ∧ p.val = t.2 := by
  induction ts generalizing ws with
  | nil => exact absurd hp List.not_mem_nil
  | cons t ts ih =>
    rcases List.mem_cons.mp hp with rfl | hp
    · exact ⟨Or.inl rfl, rfl, t, List.mem_cons_self, rfl, rfl⟩
    · obtain ⟨hbefore, hbehind, u, hu, htext, hval⟩ := ih hp
      exact ⟨Or.inr (or_self_iff.mp hbefore), hbehind, u, List.mem_cons_of_mem t hu, htext, hval⟩

end

/-! ## Values -/

section

variable {shown : F → List Char} {read : List UInt8 → Option F}

theorem dumpsItems_eq (xs : List (Json F)) : dumpsItems shown xs = xs.map (dumps shown) := by
  induction xs with
  | nil => rfl
  | cons x xs ih => rw [dumpsItems, ih, List.map_cons]

/-- A member as an object writes it. -/
def dumpsMember (shown : F → List Char) (f : List Char × Json F) : List Char := quoted f.1 ++ ':' :: ' ' :: dumps shown f.2

theorem dumpsMembers_eq (fields : List (List Char × Json F)) :
    dumpsMembers shown fields = fields.map (dumpsMember shown) := by
  induction fields with
  | nil => rfl
  | cons f fields ih => rw [dumpsMembers, ih, List.map_cons, dumpsMember]

/-- Members as an object writes them, the first behind `ws`. -/
def members (shown : F → List Char) (ws : List UInt8) : List (List Char × Json F) → List (Member F)
  | [] => []
  | (k, v) :: fields =>
    ⟨ws, Utf8.bytes (k.flatMap quotedChar), k, [], [0x20], Utf8.bytes (dumps shown v), [], v⟩ ::
      members shown [0x20] fields

theorem members_item (ws : List UInt8) (fields : List (List Char × Json F)) :
    (members shown ws fields).map Member.item = pieces ws (fields.map fun f => (dumpsMember shown f, f)) := by
  induction fields generalizing ws with
  | nil => rfl
  | cons f fields ih =>
    have hcolon : Utf8.bytes (':' :: ' ' :: dumps shown f.2) = 0x3a :: 0x20 :: Utf8.bytes (dumps shown f.2) := rfl
    rw [members, List.map_cons, ih, List.map_cons, pieces, dumpsMember, bytes_append, bytes_quoted, hcolon]
    rfl

theorem members_val (ws : List UInt8) (fields : List (List Char × Json F)) :
    (members shown ws fields).map (fun m => (m.key, m.val)) = fields := by
  induction fields generalizing ws with
  | nil => rfl
  | cons f fields ih => rw [members, List.map_cons, ih]

theorem mem_members {ws : List UInt8} {fields : List (List Char × Json F)} {m : Member F}
    (hm : m ∈ members shown ws fields) :
    (m.before = ws ∨ m.before = [0x20]) ∧ m.ws₁ = [] ∧ m.ws₂ = [0x20] ∧ m.behind = [] ∧
      ∃ f ∈ fields, m.keyText = Utf8.bytes (f.1.flatMap quotedChar) ∧ m.key = f.1 ∧
        m.text = Utf8.bytes (dumps shown f.2) ∧ m.val = f.2 := by
  induction fields generalizing ws with
  | nil => exact absurd hm List.not_mem_nil
  | cons f fields ih =>
    rcases List.mem_cons.mp hm with rfl | hm
    · exact ⟨Or.inl rfl, rfl, rfl, rfl, f, List.mem_cons_self, rfl, rfl, rfl, rfl⟩
    · obtain ⟨hbefore, h₁, h₂, hbehind, g, hg, hrest⟩ := ih hm
      exact ⟨Or.inr (or_self_iff.mp hbefore), h₁, h₂, hbehind, g, List.mem_cons_of_mem f hg, hrest⟩

theorem ws_blank : Ws [0x20] := by
  intro b hb
  exact Or.inl (List.mem_singleton.mp hb)

/-- What is written in front of an item. -/
theorem ws_before {ws : List UInt8} (h : ws = [] ∨ ws = [0x20]) : Ws ws := by
  rcases h with rfl | rfl
  · exact ws_nil
  · exact ws_blank

theorem denotes_arr {xs : List (Json F)} (hne : xs ≠ []) (hxs : ∀ x ∈ xs, Denotes read (Utf8.bytes (dumps shown x)) x) :
    Denotes read (0x5b :: (joined (pieces [] (xs.map fun x => (dumps shown x, x))) ++ [0x5d])) (.arr xs) := by
  have hval : (pieces [] (xs.map fun x => (dumps shown x, x))).map Item.val = xs := by
    rw [pieces_val, List.map_map]
    exact List.map_id xs
  have hps : pieces [] (xs.map fun x => (dumps shown x, x)) ≠ [] := by
    intro hnil
    rw [hnil] at hval
    exact hne hval.symm
  have harr := @Denotes.arr F read (pieces [] (xs.map fun x => (dumps shown x, x))) hps ?_ ?_
  · rwa [hval] at harr
  · intro p hp
    obtain ⟨hbefore, hbehind, -⟩ := mem_pieces hp
    rw [hbehind]
    exact ⟨ws_before hbefore, ws_nil⟩
  · intro p hp
    obtain ⟨-, -, u, hu, htext, hp⟩ := mem_pieces hp
    obtain ⟨x, hx, rfl⟩ := List.mem_map.mp hu
    rw [htext, hp]
    exact hxs x hx

theorem denotes_obj {fields : List (List Char × Json F)} (hne : fields ≠ [])
    (hfields : ∀ f ∈ fields, Denotes read (Utf8.bytes (dumps shown f.2)) f.2) :
    Denotes read (OPEN :: (joined ((members shown [] fields).map Member.item) ++ [CLOSE])) (.obj fields) := by
  have hval := @members_val F shown [] fields
  have hms : members shown [] fields ≠ [] := by
    intro hnil
    rw [hnil] at hval
    exact hne hval.symm
  have hobj := @Denotes.obj F read (members shown [] fields) hms ?_ ?_ ?_
  · rwa [hval] at hobj
  · intro m hm
    obtain ⟨hbefore, h₁, h₂, hbehind, -⟩ := mem_members hm
    rw [h₁, h₂, hbehind]
    exact ⟨ws_before hbefore, ws_nil, ws_blank, ws_nil⟩
  · intro m hm
    obtain ⟨-, -, -, -, f, -, htext, hkey, -⟩ := mem_members hm
    rw [htext, hkey]
    exact chars_quoted f.1
  · intro m hm
    obtain ⟨-, -, -, -, f, hf, -, -, htext, hm⟩ := mem_members hm
    rw [htext, hm]
    exact hfields f hf

/-- What a value is written as denotes it. -/
theorem denotes_dumps {v : Json F} (h : Numbers (Shown shown read) v) : Denotes read (Utf8.bytes (dumps shown v)) v := by
  induction h with
  | null => exact .null
  | bool b =>
    cases b with
    | false => exact .bool false
    | true => exact .bool true
  | @num n h =>
    obtain ⟨c, t, hbytes, hc⟩ := h.begins
    have hnumeric := h.numeric
    have hback := h.back
    rw [hbytes] at hnumeric hback
    rw [dumps, hbytes]
    exact .num hc hnumeric hback
  | str s =>
    rw [dumps, bytes_quoted]
    exact .str (chars_quoted s)
  | @arr xs hxs ih =>
    cases xs with
    | nil => exact .emptyArr ws_nil
    | cons x xs =>
      have hitems := joined_pieces [] (dumps shown x, x) (xs.map fun x => (dumps shown x, x))
      rw [← List.map_cons (f := fun x => (dumps shown x, x)), List.map_map, List.nil_append] at hitems
      have htext : Utf8.bytes (dumps shown (.arr (x :: xs))) =
          0x5b :: (joined (pieces [] ((x :: xs).map fun x => (dumps shown x, x))) ++ [0x5d]) := by
        rw [dumps, dumpsItems_eq, hitems, Utf8.bytes_cons, bytes_append]
        rfl
      rw [htext]
      exact denotes_arr (List.cons_ne_nil x xs) ih
  | @obj fields hfields ih =>
    cases fields with
    | nil => exact .emptyObj ws_nil
    | cons f fields =>
      have hitems := joined_pieces [] (dumpsMember shown f, f) (fields.map fun f => (dumpsMember shown f, f))
      rw [← List.map_cons (f := fun f => (dumpsMember shown f, f)), List.map_map, List.nil_append] at hitems
      have htext : Utf8.bytes (dumps shown (.obj (f :: fields))) =
          OPEN :: (joined ((members shown [] (f :: fields)).map Member.item) ++ [CLOSE]) := by
        rw [dumps, dumpsMembers_eq, members_item, hitems, Utf8.bytes_cons, bytes_append]
        rfl
      rw [htext]
      exact denotes_obj (List.cons_ne_nil f fields) ih

/-- A value that is written is read back. -/
theorem parse_dumps {v : Json F} (h : Numbers (Shown shown read) v) : parse read (Utf8.bytes (dumps shown v)) = .ok v :=
  parse_of_document ⟨[], _, [], (List.append_nil _).symm, ws_nil, denotes_dumps h, ws_nil⟩

theorem parse_dumps_seven :
    parse (fun bs => bs.head?.map fun b => b.toNat - 0x30)
      (Utf8.bytes (dumps (fun n : ℕ => [Char.ofNat (0x30 + n)]) (.obj [(['"'], .arr [.num 7, .bool true])]))) =
    .ok (.obj [(['"'], .arr [.num 7, .bool true])]) := by
  refine parse_dumps (.obj ?_)
  intro f hf
  rw [List.mem_singleton.mp hf]
  refine .arr ?_
  intro x hx
  rcases List.mem_cons.mp hx with rfl | hx
  · exact .num ⟨⟨0x37, [], rfl, Or.inl rfl⟩, List.forall_mem_singleton.mpr rfl, rfl⟩
  · rw [List.mem_singleton.mp hx]
    exact .bool true

end

end Chatlink.Tachyon.Json
