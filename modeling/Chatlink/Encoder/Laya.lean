import Chatlink.Lib.Lists
import Chatlink.Tachyon.Template
import Chatlink.Token.Build

/-!
# Laya's questions

A question is one sequence: its instructions, a mask token with a text for every option, and the state. Each part has
a budget of its own with a floor below it, so the parts may be more than the sequence holds, and what is over is cut
off at the end. The positions of the masks are those of a sequence that was never cut, so they are right as long as
the last of them is in it.
-/
namespace Chatlink.Encoder.Laya

open Tachyon (Error)
open Token (Tokenizer utf8)

/-- The most tokens an option's text keeps. -/
def OPTION_TOKENS : ℕ := 48

inductive Kind where
  | choice
  | score
  | noul
  deriving DecidableEq, Repr

def Kind.name : Kind → String
  | choice => "choice"
  | score => "score"
  | noul => "noul"

/-- A question about a state, its options as labels with descriptions. -/
structure Question where
  kind : Kind
  instructions : String
  options : List (String × String)
  deriving DecidableEq, Repr

def described (label text : String) : String := if text.isEmpty then label else s!"{label}: {text}"

/-- An answer of a `noul` question, as it is described or by default. -/
def Question.answer (q : Question) (label default : String) : String :=
  let d := ((q.options.find? fun o => o.1 = label).map Prod.snd).getD ""
  let text := if d.isEmpty then default else d
  s!"{label}: {text}"

/-- The texts of the options, in order. -/
def Question.rendered (q : Question) : List String :=
  match q.kind with
  | .choice => q.options.map fun (l, d) => described l d
  | .score => q.options.zipIdx.map fun ((_, d), i) => s!"level {i}: {d}"
  | .noul => [q.answer "false" "no, the statement does not hold", q.answer "true" "yes, the statement holds"]

/-- Tokens of a sequence in all, and of the question with its options. -/
structure Budget where
  total : ℕ
  head : ℕ
  deriving DecidableEq, Repr

/-- The tokens that open a sequence, close its parts and mark its options. -/
structure Frame where
  cls : UInt32
  sep : UInt32
  mask : UInt32
  deriving DecidableEq, Repr

/-- The special token that is written `text`. -/
def special? (tok : Tokenizer) (text : String) : Option UInt32 :=
  tok.special.find? fun id => tok.tokenBytes id = utf8 text

/-- The first of `names` that is a special token. -/
def special (tok : Tokenizer) (names : List String) : Except Error UInt32 :=
  match names.findSome? (special? tok) with
  | some id => .ok id
  | none => .error (.format s!"the tokenizer has none of {repr names}")

/-- The frame of `sequences`. -/
def frameOf (tok : Tokenizer) : Except Error Frame := do
  let cls ← special tok ["<bos>", "[CLS]"]
  let sep ← special tok ["<eos>", "[SEP]"]
  let mask ← special tok ["<mask>", "[MASK]"]
  return ⟨cls, sep, mask⟩

section Builder

-- The tokens of a text, and the text of bytes that need not be UTF-8.
variable (encode : String → List UInt32) (lossy : List UInt8 → String)

def replaceFrom (old new : List Char) : ℕ → List Char → List Char
  | 0, s => s
  | _ + 1, [] => []
  | n + 1, c :: s =>
    if old.isPrefixOf (c :: s) then new ++ replaceFrom old new n ((c :: s).drop old.length)
    else c :: replaceFrom old new n s

/-- `str::replace`; the empty text is found before every character and at the end. -/
def replaced (s old new : List Char) : List Char :=
  if old.isEmpty then new ++ s.flatMap fun c => c :: new else replaceFrom old new s.length s

structure Builder where
  tok : Tokenizer
  frame : Frame
  budget : Budget

namespace Builder

/-- The tokens of a text, a space for the mask's text in it. -/
def tokens (b : Builder) (text : String) : List UInt32 :=
  encode (String.ofList (replaced text.toList (lossy (b.tok.tokenBytes b.frame.mask)).toList [' ']))

def used (options : List (List UInt32)) : ℕ := (options.map List.length).sum

/-- The options' tokens, the mask first, before the budget of the question. -/
def options (b : Builder) (q : Question) : List (List UInt32) :=
  q.rendered.map fun o => b.frame.mask :: (b.tokens encode lossy s!" {o}").take OPTION_TOKENS

/-- The instructions' tokens and each option's, cut to the budget. -/
def head (b : Builder) (q : Question) : List UInt32 × List (List UInt32) :=
  let options := b.options encode lossy q
  let options := if b.budget.head < used options + 16 then
      options.map (·.take (max 4 ((b.budget.head - 16) / max 1 options.length)))
    else options
  let head := (b.tokens encode lossy s!"{q.kind.name} question: {q.instructions}").take
    (max 8 (b.budget.head - used options))
  (head, options)

/-- Where options begin whose first begins at `n`. -/
def markersFrom : ℕ → List (List UInt32) → List ℕ
  | _, [] => []
  | n, o :: options => n :: markersFrom (n + o.length) options

/-- The sequence of a question about a state, and the positions of the options' masks in it. -/
def sequence (b : Builder) (q : Question) (state : List UInt32) (keepEnd : Bool) :
    List UInt32 × Except Error (List ℕ) :=
  let (head, options) := b.head encode lossy q
  let ids := b.frame.cls :: head ++ [b.frame.sep]
  let markers := markersFrom ids.length options
  let ids := ids ++ options.flatten ++ [b.frame.sep]
  let room := min (b.budget.total - (ids.length + 1)) state.length
  let ids := ids ++ (if keepEnd then state.drop (state.length - room) else state.take room) ++ [b.frame.sep]
  let ids := ids.take b.budget.total
  match markers.getLast? with
  | some m => (ids, if b.budget.total ≤ m then .error (.tooLong (m + 1) b.budget.total) else .ok markers)
  | none => (ids, .ok markers)

/-- What stands before the state in a sequence that is not cut. -/
def before (b : Builder) (q : Question) : List UInt32 :=
  let (head, options) := b.head encode lossy q
  b.frame.cls :: head ++ [b.frame.sep] ++ options.flatten ++ [b.frame.sep]

/-- Where the last option begins: behind the frame's first tokens, the instructions and the options before it. -/
def lastMarker (b : Builder) (q : Question) : ℕ :=
  let (head, options) := b.head encode lossy q
  2 + head.length + used options.dropLast

/-- A sequence as it is to be: the masks are where they are said to be, one for each option, and of the state there is
as much as there is room for, from its start or from its end. -/
structure WellFormed (b : Builder) (q : Question) (state : List UInt32) (keepEnd : Bool) (ids : List UInt32)
    (markers : List ℕ) : Prop where
  small : ids.length ≤ b.budget.total
  masks : ∀ i, ids[i]? = some b.frame.mask ↔ i ∈ markers
  each : markers.length = q.rendered.length
  increasing : markers.Pairwise (· < ·)
  state : ∃ kept close, ids = (b.before encode lossy q).take b.budget.total ++ kept ++ close ∧
    (close = [b.frame.sep] ∨ close = [] ∧ kept = []) ∧ (if keepEnd then kept <:+ state else kept <+: state) ∧
    kept.length = min (b.budget.total - ((b.before encode lossy q).length + 1)) state.length

/-- What is taken of the state. -/
def kept (b : Builder) (q : Question) (state : List UInt32) (keepEnd : Bool) : List UInt32 :=
  let room := min (b.budget.total - ((b.before encode lossy q).length + 1)) state.length
  if keepEnd then state.drop (state.length - room) else state.take room

/-! ## Masks and their positions -/

/-- An option's tokens: the mask, and then none that is the mask. -/
def Marked (mask : UInt32) (o : List UInt32) : Prop := ∃ text, o = mask :: text ∧ mask ∉ text

theorem Marked.take {mask : UInt32} {o : List UInt32} (h : Marked mask o) {n : ℕ} (hn : 0 < n) : Marked mask (o.take n) := by
  obtain ⟨text, rfl, hnot⟩ := h
  obtain ⟨k, rfl⟩ := Nat.exists_eq_succ_of_ne_zero hn.ne'
  exact ⟨text.take k, List.take_succ_cons, fun hin => hnot (List.mem_of_mem_take hin)⟩

theorem getElem?_append_eq_some {α : Type} {xs ys : List α} {i : ℕ} {a : α} (ha : a ∉ xs) :
    (xs ++ ys)[i]? = some a ↔ ∃ j, i = xs.length + j ∧ ys[j]? = some a := by
  constructor
  · intro h
    by_cases hi : i < xs.length
    · rw [List.getElem?_append_left hi] at h
      exact absurd (List.mem_of_getElem? h) ha
    · rw [List.getElem?_append_right (Nat.not_lt.mp hi)] at h
      exact ⟨i - xs.length, by omega, h⟩
  · rintro ⟨j, rfl, h⟩
    rwa [List.getElem?_append_right (Nat.le_add_right _ _), Nat.add_sub_cancel_left]

section Markers

variable {mask : UInt32} {options : List (List UInt32)} {n : ℕ}

theorem length_markersFrom (n : ℕ) (options : List (List UInt32)) : (markersFrom n options).length = options.length := by
  induction options generalizing n with
  | nil => rfl
  | cons o options ih => rw [markersFrom, List.length_cons, ih, List.length_cons]

theorem le_of_mem_markersFrom {i : ℕ} (h : i ∈ markersFrom n options) : n ≤ i := by
  induction options generalizing n with
  | nil => cases h
  | cons o options ih =>
    rcases List.mem_cons.mp h with rfl | h
    · exact Nat.le_refl _
    · exact (Nat.le_add_right _ _).trans (ih h)

theorem pairwise_markersFrom (h : ∀ o ∈ options, Marked mask o) : (markersFrom n options).Pairwise (· < ·) := by
  induction options generalizing n with
  | nil => exact .nil
  | cons o options ih =>
    obtain ⟨text, rfl, -⟩ := h o (List.mem_cons_self ..)
    refine .cons (fun i hi => ?_) (ih fun o' ho' => h o' (List.mem_cons_of_mem _ ho'))
    have hle := le_of_mem_markersFrom hi
    rw [List.length_cons] at hle
    omega

theorem getLast?_markersFrom (hne : options ≠ []) :
    (markersFrom n options).getLast? = some (n + used options.dropLast) := by
  induction options generalizing n with
  | nil => exact absurd rfl hne
  | cons o options ih =>
    cases options with
    | nil => rfl
    | cons o' options =>
      rw [markersFrom, markersFrom, List.getLast?_cons_cons, ← markersFrom, ih (List.cons_ne_nil _ _), List.dropLast_cons_cons]
      simp [used, Nat.add_assoc]

theorem le_last_of_mem_markersFrom {i : ℕ} (h : i ∈ markersFrom n options) : i ≤ n + used options.dropLast := by
  induction options generalizing n with
  | nil => cases h
  | cons o options ih =>
    rcases List.mem_cons.mp h with rfl | h
    · exact Nat.le_add_right _ _
    · cases options with
      | nil => cases h
      | cons o' options =>
        refine (ih h).trans (Nat.le_of_eq ?_)
        rw [List.dropLast_cons_cons]
        simp [used, Nat.add_assoc]

/-- The masks of options one behind the other are where the options begin. -/
theorem mask_flatten_iff (h : ∀ o ∈ options, Marked mask o) {j : ℕ} :
    options.flatten[j]? = some mask ↔ n + j ∈ markersFrom n options := by
  induction options generalizing n j with
  | nil => simp [markersFrom]
  | cons o options ih =>
    obtain ⟨text, rfl, hnot⟩ := h o (List.mem_cons_self ..)
    have hrest := fun o' ho' => h o' (List.mem_cons_of_mem _ ho')
    rw [List.flatten_cons, markersFrom, List.mem_cons, List.length_cons]
    cases j with
    | zero => simp
    | succ j =>
      rw [List.cons_append, List.getElem?_cons_succ, getElem?_append_eq_some hnot]
      constructor
      · rintro ⟨k, rfl, hk⟩
        right
        have hin := (@ih (n + (text.length + 1)) hrest k).mp hk
        have hsum : n + (text.length + k + 1) = n + (text.length + 1) + k := by omega
        rwa [hsum]
      · rintro (hzero | hin)
        · omega
        · have hle := le_of_mem_markersFrom hin
          have hsum : n + (text.length + 1) + (j - text.length) = n + (j + 1) := by omega
          exact ⟨j - text.length, by omega, (@ih (n + (text.length + 1)) hrest _).mpr (hsum ▸ hin)⟩

end Markers

/-! ## The frame -/

theorem special_ok {tok : Tokenizer} {names : List String} {id : UInt32} (h : special tok names = .ok id) :
    tok.isSpecial id = true ∧ ∃ name ∈ names, tok.tokenBytes id = utf8 name := by
  unfold special at h
  split at h
  · rename_i id' hfound
    obtain rfl := Except.ok.inj h
    obtain ⟨name, hname, hid⟩ := List.exists_of_findSome?_eq_some hfound
    have hmem := List.mem_of_find?_eq_some hid
    have hbytes := List.find?_some hid
    exact ⟨List.contains_iff_mem.mpr hmem, name, hname, of_decide_eq_true hbytes⟩
  · cases h

/-- The mask is a special token, and none of the others of the frame. -/
theorem frameOf_ok {tok : Tokenizer} {frame : Frame} (h : frameOf tok = .ok frame) :
    tok.isSpecial frame.mask = true ∧ frame.cls ≠ frame.mask ∧ frame.sep ≠ frame.mask := by
  obtain ⟨cls, hcls, h⟩ := Lists.bind_eq_ok h
  obtain ⟨sep, hsep, h⟩ := Lists.bind_eq_ok h
  obtain ⟨mask, hmask, h⟩ := Lists.bind_eq_ok h
  obtain rfl := Except.ok.inj h
  obtain ⟨-, c, hc, hcbytes⟩ := special_ok hcls
  obtain ⟨-, s, hs, hsbytes⟩ := special_ok hsep
  obtain ⟨hspecial, m, hm, hmbytes⟩ := special_ok hmask
  -- Tokens that are written differently are not the same.
  have hapart : ∀ c ∈ ["<bos>", "[CLS]", "<eos>", "[SEP]"], ∀ m ∈ ["<mask>", "[MASK]"], utf8 c ≠ utf8 m := by decide
  have hin : ["<bos>", "[CLS]"] ++ ["<eos>", "[SEP]"] = ["<bos>", "[CLS]", "<eos>", "[SEP]"] := rfl
  refine ⟨hspecial, fun heq => ?_, fun heq => ?_⟩
  · exact hapart c (hin ▸ List.mem_append_left _ hc) m hm (hcbytes.symm.trans ((congrArg _ heq).trans hmbytes))
  · exact hapart s (hin ▸ List.mem_append_right _ hs) m hm (hsbytes.symm.trans ((congrArg _ heq).trans hmbytes))

/-! ## Sequences -/

/-- No text is encoded to a special token. -/
def Plain (tok : Tokenizer) : Prop := ∀ text, ∀ id ∈ encode text, tok.isSpecial id = false

section Sequence

variable {encode lossy} {b : Builder} {q : Question}

theorem mask_notMem {ids : List UInt32} (hmask : b.tok.isSpecial b.frame.mask = true)
    (hids : ∀ id ∈ ids, b.tok.isSpecial id = false) : b.frame.mask ∉ ids := fun hin => by
  rw [hids _ hin] at hmask
  cases hmask

theorem marked_head (hmask : b.tok.isSpecial b.frame.mask = true) (hplain : Plain encode b.tok) :
    b.frame.mask ∉ (b.head encode lossy q).1 ∧ (∀ o ∈ (b.head encode lossy q).2, Marked b.frame.mask o) ∧
    (b.head encode lossy q).2.length = q.rendered.length := by
  have htokens : ∀ text, b.frame.mask ∉ b.tokens encode lossy text := fun text => mask_notMem hmask (hplain _)
  have hoptions : ∀ o ∈ b.options encode lossy q, Marked b.frame.mask o := by
    intro o ho
    obtain ⟨text, -, rfl⟩ := List.mem_map.mp ho
    exact ⟨_, rfl, fun hin => htokens _ (List.mem_of_mem_take hin)⟩
  have hlength : (b.options encode lossy q).length = q.rendered.length := List.length_map _
  refine ⟨fun hin => htokens _ (List.mem_of_mem_take hin), ?_, ?_⟩
  · rw [head]
    dsimp only
    split
    · intro o ho
      obtain ⟨o', ho', rfl⟩ := List.mem_map.mp ho
      exact (hoptions o' ho').take (by omega)
    · exact hoptions
  · rw [head]
    dsimp only
    split
    · rw [List.length_map, hlength]
    · exact hlength

/-- The positions of the options, cut or not. -/
theorem sequence_eq (b : Builder) (q : Question) (state : List UInt32) (keepEnd : Bool) :
    b.sequence encode lossy q state keepEnd =
      ((b.before encode lossy q ++ b.kept encode lossy q state keepEnd ++ [b.frame.sep]).take b.budget.total,
        match (markersFrom (2 + (b.head encode lossy q).1.length) (b.head encode lossy q).2).getLast? with
        | some m => if b.budget.total ≤ m then .error (.tooLong (m + 1) b.budget.total)
            else .ok (markersFrom (2 + (b.head encode lossy q).1.length) (b.head encode lossy q).2)
        | none => .ok (markersFrom (2 + (b.head encode lossy q).1.length) (b.head encode lossy q).2)) := by
  have hpre : (b.frame.cls :: (b.head encode lossy q).1 ++ [b.frame.sep]).length =
      2 + (b.head encode lossy q).1.length := by
    simp
    omega
  rw [sequence]
  dsimp only
  rw [hpre]
  cases (markersFrom (2 + (b.head encode lossy q).1.length) (b.head encode lossy q).2).getLast? <;> rfl

theorem mask_sequence_iff {state : List UInt32} {keepEnd : Bool} (hcls : b.frame.cls ≠ b.frame.mask)
    (hsep : b.frame.sep ≠ b.frame.mask) (hmask : b.tok.isSpecial b.frame.mask = true) (hplain : Plain encode b.tok)
    (hstate : ∀ id ∈ state, b.tok.isSpecial id = false) (i : ℕ) :
    (b.before encode lossy q ++ b.kept encode lossy q state keepEnd ++ [b.frame.sep])[i]? = some b.frame.mask ↔
      i ∈ markersFrom (2 + (b.head encode lossy q).1.length) (b.head encode lossy q).2 := by
  obtain ⟨hhead, hoptions, -⟩ := @marked_head encode lossy b q hmask hplain
  have hkept : b.frame.mask ∉ b.kept encode lossy q state keepEnd := by
    have hnot := mask_notMem hmask hstate
    rw [kept]
    split
    · exact fun hin => hnot (List.mem_of_mem_drop hin)
    · exact fun hin => hnot (List.mem_of_mem_take hin)
  have hpre : b.frame.mask ∉ b.frame.cls :: (b.head encode lossy q).1 ++ [b.frame.sep] := by
    simp [hhead, hcls.symm, hsep.symm]
  have hpost : b.frame.mask ∉ [b.frame.sep] ++ b.kept encode lossy q state keepEnd ++ [b.frame.sep] := by
    simp [hkept, hsep.symm]
  have hlength : (b.frame.cls :: (b.head encode lossy q).1 ++ [b.frame.sep]).length =
      2 + (b.head encode lossy q).1.length := by
    simp
    omega
  have hparts : b.before encode lossy q ++ b.kept encode lossy q state keepEnd ++ [b.frame.sep] =
      (b.frame.cls :: (b.head encode lossy q).1 ++ [b.frame.sep]) ++ ((b.head encode lossy q).2.flatten ++
        ([b.frame.sep] ++ b.kept encode lossy q state keepEnd ++ [b.frame.sep])) := by
    simp [before]
  rw [hparts, getElem?_append_eq_some hpre, hlength]
  constructor
  · rintro ⟨j, rfl, hj⟩
    by_cases hlt : j < (b.head encode lossy q).2.flatten.length
    · rw [List.getElem?_append_left hlt] at hj
      exact (mask_flatten_iff hoptions).mp hj
    · rw [List.getElem?_append_right (Nat.not_lt.mp hlt)] at hj
      exact absurd (List.mem_of_getElem? hj) hpost
  · intro hin
    have hle := le_of_mem_markersFrom hin
    have hsum : 2 + (b.head encode lossy q).1.length + (i - (2 + (b.head encode lossy q).1.length)) = i :=
      Nat.add_sub_cancel' hle
    have hj := (mask_flatten_iff hoptions).mpr (hsum.symm ▸ hin)
    refine ⟨_, hsum.symm, ?_⟩
    rw [List.getElem?_append_left (List.getElem?_eq_some_iff.mp hj).1, hj]

theorem length_kept (state : List UInt32) (keepEnd : Bool) : (b.kept encode lossy q state keepEnd).length =
    min (b.budget.total - ((b.before encode lossy q).length + 1)) state.length := by
  rw [kept]
  split
  · rw [List.length_drop]
    omega
  · rw [List.length_take]
    omega

/-- What is cut off is behind the state, or there is nothing of it. -/
theorem take_sequence (state : List UInt32) (keepEnd : Bool) : ∃ close,
    (b.before encode lossy q ++ b.kept encode lossy q state keepEnd ++ [b.frame.sep]).take b.budget.total =
      (b.before encode lossy q).take b.budget.total ++ b.kept encode lossy q state keepEnd ++ close ∧
    (close = [b.frame.sep] ∨ close = [] ∧ b.kept encode lossy q state keepEnd = []) := by
  have hlength := @length_kept encode lossy b q state keepEnd
  by_cases hfits : (b.before encode lossy q).length + 1 ≤ b.budget.total
  · refine ⟨[b.frame.sep], ?_, .inl rfl⟩
    have hall : (b.before encode lossy q ++ b.kept encode lossy q state keepEnd ++ [b.frame.sep]).length ≤
        b.budget.total := by
      rw [List.length_append, List.length_append, hlength, List.length_singleton]
      omega
    rw [List.take_of_length_le hall, List.take_of_length_le (by omega)]
  · have hnone : b.kept encode lossy q state keepEnd = [] := List.length_eq_zero_iff.mp (by omega)
    refine ⟨[], ?_, .inr ⟨rfl, hnone⟩⟩
    rw [hnone, List.append_nil, List.append_nil, List.append_nil, List.take_append_of_le_length (by omega)]

/-- A sequence with all its options in it. -/
theorem wellFormed_of_inside {state : List UInt32} {keepEnd : Bool} {markers : List ℕ}
    (hcls : b.frame.cls ≠ b.frame.mask) (hsep : b.frame.sep ≠ b.frame.mask)
    (hmask : b.tok.isSpecial b.frame.mask = true) (hplain : Plain encode b.tok)
    (hstate : ∀ id ∈ state, b.tok.isSpecial id = false)
    (hmarkers : markersFrom (2 + (b.head encode lossy q).1.length) (b.head encode lossy q).2 = markers)
    (hinside : ∀ i ∈ markers, i < b.budget.total) :
    b.WellFormed encode lossy q state keepEnd (b.sequence encode lossy q state keepEnd).1 markers := by
  obtain ⟨-, hoptions, hlength⟩ := @marked_head encode lossy b q hmask hplain
  have hall := @mask_sequence_iff encode lossy b q state keepEnd hcls hsep hmask hplain hstate
  obtain ⟨close, htake, hclose⟩ := @take_sequence encode lossy b q state keepEnd
  rw [sequence_eq]
  refine ⟨List.length_take_le _ _, fun i => ?_, ?_, ?_, _, close, htake, hclose, ?_, length_kept ..⟩
  · rw [List.getElem?_take]
    by_cases hi : i < b.budget.total
    · rw [if_pos hi, hall, hmarkers]
    · rw [if_neg hi]
      exact iff_of_false nofun fun hin => hi (hinside i hin)
  · rw [← hmarkers, length_markersFrom, hlength]
  · rw [← hmarkers]
    exact pairwise_markersFrom hoptions
  · rw [kept]
    split
    · exact List.drop_suffix _ _
    · exact List.take_prefix _ _

end Sequence

end Builder

/-- With the frame of the tokenizer, sequences are well formed unless the last option's mask does not fit. -/
theorem sequence_wellFormed {tok : Tokenizer} {frame : Frame} (budget : Budget) (q : Question) {state : List UInt32}
    (keepEnd : Bool) (hframe : frameOf tok = .ok frame) (hplain : Builder.Plain encode tok)
    (hstate : ∀ id ∈ state, tok.isSpecial id = false) :
    let b : Builder := ⟨tok, frame, budget⟩
    let r := b.sequence encode lossy q state keepEnd
    (∀ markers, r.2 = .ok markers → b.WellFormed encode lossy q state keepEnd r.1 markers) ∧
    ∀ e, r.2 = .error e ↔ q.rendered ≠ [] ∧ budget.total ≤ b.lastMarker encode lossy q ∧
      e = .tooLong (b.lastMarker encode lossy q + 1) budget.total := by
  intro b r
  obtain ⟨hmask, hcls, hsep⟩ := Builder.frameOf_ok hframe
  obtain ⟨-, hoptions, hlength⟩ := @Builder.marked_head encode lossy b q hmask hplain
  have hinside := @Builder.wellFormed_of_inside encode lossy b q state keepEnd
  have hr : r.2 = _ := congrArg Prod.snd (Builder.sequence_eq b q state keepEnd)
  by_cases hnone : (b.head encode lossy q).2 = []
  · have hrendered : q.rendered = [] := List.length_eq_zero_iff.mp (by rw [← hlength, hnone]; rfl)
    rw [hnone] at hr
    refine ⟨fun markers hok => ?_, fun e => ?_⟩
    · obtain rfl := Except.ok.inj (hr.symm.trans hok)
      exact hinside hcls hsep hmask hplain hstate (by rw [hnone, Builder.markersFrom]) nofun
    · rw [hr]
      exact iff_of_false nofun fun h => h.1 hrendered
  · have hrendered : q.rendered ≠ [] := fun h => hnone (List.length_eq_zero_iff.mp (by rw [hlength, h]; rfl))
    have hlast := @Builder.getLast?_markersFrom _ (2 + (b.head encode lossy q).1.length) hnone
    rw [hlast] at hr
    change r.2 = if budget.total ≤ b.lastMarker encode lossy q then _ else _ at hr
    by_cases hfits : budget.total ≤ b.lastMarker encode lossy q
    · rw [if_pos hfits] at hr
      refine ⟨fun markers hok => ?_, fun e => ?_⟩
      · rw [hr] at hok
        cases hok
      · rw [hr]
        constructor
        · intro he
          exact ⟨hrendered, hfits, (Except.error.inj he).symm⟩
        · rintro ⟨-, -, rfl⟩
          rfl
    · rw [if_neg hfits] at hr
      refine ⟨fun markers hok => ?_, fun e => ?_⟩
      · rw [hr] at hok
        obtain rfl := Except.ok.inj hok
        refine hinside hcls hsep hmask hplain hstate rfl fun i hi => ?_
        exact (Builder.le_last_of_mem_markersFrom hi).trans_lt (Nat.not_le.mp hfits)
      · rw [hr]
        exact iff_of_false nofun fun h => hfits h.2.1

/-- A tokenizer of three special tokens, with nothing else in its texts. -/
def framing : Tokenizer where
  flags := 0
  unk := Token.NONE
  offsets := [0, 5, 10, 16]
  text := utf8 "<bos><eos><mask>"
  special := [0, 1, 2]
  bytes := []
  chars := []
  rare := []
  joins := []
  added := []
  merges := []
  words := []
  frame := (Token.NONE, Token.NONE)

/-- Two options in a sequence of ten, and the end of a state of two tokens. -/
theorem ten_tokens_wellFormed :
    Builder.WellFormed (fun _ => [7]) (fun _ => "<mask>") ⟨framing, ⟨0, 1, 2⟩, ⟨10, 192⟩⟩
      ⟨.choice, "which?", [("a", ""), ("b", "the second")]⟩ [8, 9] true [0, 7, 1, 2, 7, 2, 7, 1, 9, 1] [3, 5] := by
  have hframe : frameOf framing = .ok ⟨0, 1, 2⟩ := by decide
  have hspecial : ∀ id, framing.isSpecial id = [0, 1, 2].contains id := fun _ => rfl
  have hplain : Builder.Plain (fun _ => [7]) framing := by
    intro _ id hid
    obtain rfl := List.mem_singleton.mp hid
    rw [hspecial]
    rfl
  have hsequence : Builder.sequence (fun _ => [7]) (fun _ => "<mask>") ⟨framing, ⟨0, 1, 2⟩, ⟨10, 192⟩⟩
      ⟨.choice, "which?", [("a", ""), ("b", "the second")]⟩ [8, 9] true = ([0, 7, 1, 2, 7, 2, 7, 1, 9, 1], .ok [3, 5]) := by
    decide
  have hstate : ∀ id ∈ [8, 9], framing.isSpecial id = false := by
    intro id hid
    rw [hspecial]
    rcases List.mem_pair.mp hid with rfl | rfl <;> rfl
  have hwell := (@sequence_wellFormed _ (fun _ => "<mask>") _ _ ⟨10, 192⟩
    ⟨.choice, "which?", [("a", ""), ("b", "the second")]⟩ _ true hframe hplain hstate).1 [3, 5]
  rw [hsequence] at hwell
  exact hwell rfl

end Builder

end Chatlink.Encoder.Laya
