import Mathlib

/-!
# Backtracking regular expressions

Matching is the ordered-choice, leftmost semantics of the usual backtracking
engines: `Re.run` lists every way a pattern can match from a cursor, in the
order in which a backtracking engine would try them, so the engine's answer is
the head of that list. A cursor keeps the text already passed (reversed), so
that anchors and word boundaries can look back, and the captured groups.
-/
namespace Regex

/-- Patterns. `star` is Kleene iteration, greedy when its flag is set. -/
inductive Re where
  | eps
  | chr (p : Char → Bool)
  | seq (a b : Re)
  | alt (a b : Re)
  | star (greedy : Bool) (a : Re)
  | group (i : ℕ) (a : Re)
  | bos
  | eos
  | wordEdge (word : Char → Bool)

/-- A position in the text together with the groups captured so far. -/
structure Cursor where
  pre : List Char
  rest : List Char
  caps : List (ℕ × List Char) := []
  deriving DecidableEq

namespace Cursor

/-- The text passed between the cursor `c` and the later cursor `d`. -/
def between (c d : Cursor) : List Char :=
  (d.pre.take (d.pre.length - c.pre.length)).reverse

def capture (c d : Cursor) (i : ℕ) : Cursor :=
  { d with caps := (i, c.between d) :: d.caps }

def get (c : Cursor) (i : ℕ) : Option (List Char) := c.caps.lookup i

def text (c : Cursor) : List Char := c.pre.reverse ++ c.rest

end Cursor

/-- Iteration of a matcher. The fuel bounds the number of rounds; a round that
consumes nothing is not repeated, as in the engines this models. -/
def iterate (f : Cursor → List Cursor) (greedy : Bool) : ℕ → Cursor → List Cursor
  | 0, c => [c]
  | n + 1, c =>
    let more := ((f c).filter fun d => d.rest.length < c.rest.length).flatMap
      (iterate f greedy n)
    if greedy then more ++ [c] else c :: more

def isEdge (word : Char → Bool) (c : Cursor) : Bool :=
  (c.pre.head?.any word) != (c.rest.head?.any word)

namespace Re

/-- All matches from a cursor, in the order a backtracking engine tries them. -/
def run : Re → Cursor → List Cursor
  | eps, c => [c]
  | chr p, c =>
    match c.rest with
    | [] => []
    | x :: xs => if p x then [{ c with pre := x :: c.pre, rest := xs }] else []
  | seq a b, c => (run a c).flatMap (run b)
  | alt a b, c => run a c ++ run b c
  | star greedy a, c => iterate (run a) greedy c.rest.length c
  | group i a, c => (run a c).map fun d => c.capture d i
  | bos, c => if c.pre.isEmpty then [c] else []
  | eos, c => if c.rest.isEmpty || c.rest == ['\n'] then [c] else []
  | wordEdge word, c => if isEdge word c then [c] else []

def opt (a : Re) : Re := alt a eps
def plus (a : Re) : Re := seq a (star true a)
def lazyPlus (a : Re) : Re := seq a (star false a)

/-- `m` copies followed by up to `n` more, as many as possible. -/
def upTo (a : Re) : ℕ → Re
  | 0 => eps
  | n + 1 => opt (seq a (upTo a n))

def times (a : Re) : ℕ → Re
  | 0 => eps
  | n + 1 => seq a (times a n)

def between (a : Re) (m n : ℕ) : Re := seq (times a m) (upTo a (n - m))

def all : List Re → Re
  | [] => eps
  | [a] => a
  | a :: as => seq a (all as)

def any : List Re → Re
  | [] => chr fun _ => false
  | [a] => a
  | a :: as => alt a (any as)

/-- The engine's answer at one position. -/
def matchHere (r : Re) (c : Cursor) : Option Cursor := (r.run c).head?

/-- Anchored match at the start of the text. -/
def matchStart (r : Re) (s : List Char) : Option Cursor := r.matchHere ⟨[], s, []⟩

/-- Leftmost match anywhere at or after a cursor, with the cursor it starts at. -/
def searchFrom (r : Re) : List Char → List Char → Option (Cursor × Cursor)
  | pre, [] => (r.matchHere ⟨pre, [], []⟩).map fun d => (⟨pre, [], []⟩, d)
  | pre, x :: xs =>
    match r.matchHere ⟨pre, x :: xs, []⟩ with
    | some d => some (⟨pre, x :: xs, []⟩, d)
    | none => searchFrom r (x :: pre) xs

def search (r : Re) (s : List Char) : Bool := (r.searchFrom [] s).isSome

/-- The successive non-overlapping matches, leftmost first. -/
def findAllFrom (r : Re) : ℕ → List Char → List Char → List (List Char)
  | 0, _, _ => []
  | n + 1, pre, s =>
    match r.searchFrom pre s with
    | none => []
    | some (c, d) =>
      match d.rest with
      | [] => [c.between d]
      | x :: xs =>
        if d.rest.length < c.rest.length then
          c.between d :: findAllFrom r n d.pre d.rest
        else c.between d :: findAllFrom r n (x :: d.pre) xs

def findAll (r : Re) (s : List Char) : List (List Char) := r.findAllFrom (s.length + 1) [] s

end Re

/-! ## What a match says about the text -/

/-- The cursor `d` comes from `c` by passing the text `w`. -/
def Passes (c : Cursor) (w : List Char) (d : Cursor) : Prop :=
  d.pre = w.reverse ++ c.pre ∧ c.rest = w ++ d.rest

theorem Passes.refl (c : Cursor) : Passes c [] c := ⟨rfl, rfl⟩

theorem Passes.trans {c d e : Cursor} {u v : List Char}
    (h : Passes c u d) (k : Passes d v e) : Passes c (u ++ v) e := by
  refine ⟨?_, ?_⟩
  · rw [k.1, h.1]
    simp
  · rw [h.2, k.2, List.append_assoc]

theorem Passes.between {c d : Cursor} {w : List Char} (h : Passes c w d) : c.between d = w := by
  unfold Cursor.between
  rw [h.1]
  simp

/-- The cursor `d` comes from `c` by passing characters of the class `p`, with the same
captures. -/
def Across (p : Char → Prop) (c d : Cursor) : Prop :=
  ∃ w, Passes c w d ∧ (∀ x ∈ w, p x) ∧ d.caps = c.caps

namespace Across

variable {p : Char → Prop} {c d e : Cursor}

theorem refl (p : Char → Prop) (c : Cursor) : Across p c c := ⟨[], Passes.refl c, by simp, rfl⟩

theorem trans (h : Across p c d) (k : Across p d e) : Across p c e := by
  obtain ⟨u, hu, pu, cu⟩ := h
  obtain ⟨v, hv, pv, cv⟩ := k
  refine ⟨u ++ v, hu.trans hv, ?_, cv.trans cu⟩
  intro x hx
  rcases List.mem_append.mp hx with hx | hx
  · exact pu x hx
  · exact pv x hx

end Across

/-- Iteration stays inside a reflexive and transitive relation of its rounds. -/
theorem iterate_rel {f : Cursor → List Cursor} {R : Cursor → Cursor → Prop} (greedy : Bool)
    (hrefl : ∀ c, R c c) (htrans : ∀ {c d e}, R c d → R d e → R c e)
    (hf : ∀ c, ∀ d ∈ f c, R c d) : ∀ n c, ∀ d ∈ iterate f greedy n c, R c d := by
  intro n
  induction n with
  | zero =>
    intro c d hd
    obtain rfl : d = c := List.mem_singleton.mp hd
    exact hrefl d
  | succ n ih =>
    intro c d hd
    have hmem : d = c ∨ ∃ e ∈ f c, d ∈ iterate f greedy n e := by
      simp only [iterate] at hd
      split at hd
      · rcases List.mem_append.mp hd with h | h
        · obtain ⟨e, he, hde⟩ := List.mem_flatMap.mp h
          exact Or.inr ⟨e, (List.mem_filter.mp he).1, hde⟩
        · exact Or.inl (List.mem_singleton.mp h)
      · rcases List.mem_cons.mp hd with h | h
        · exact Or.inl h
        · obtain ⟨e, he, hde⟩ := List.mem_flatMap.mp h
          exact Or.inr ⟨e, (List.mem_filter.mp he).1, hde⟩
    rcases hmem with rfl | ⟨e, he, hde⟩
    · exact hrefl d
    · exact htrans (hf c e he) (ih e d hde)

namespace Re

variable {a b r : Re} {c d : Cursor}

/-! ## One pattern at a time -/

theorem mem_seq (h : d ∈ (seq a b).run c) : ∃ e ∈ a.run c, d ∈ b.run e := List.mem_flatMap.mp h

theorem mem_alt (h : d ∈ (alt a b).run c) : d ∈ a.run c ∨ d ∈ b.run c := List.mem_append.mp h

theorem mem_group {i : ℕ} (h : d ∈ (group i a).run c) : ∃ e ∈ a.run c, d = c.capture e i := by
  obtain ⟨e, he, hd⟩ := List.mem_map.mp h
  exact ⟨e, he, hd.symm⟩

theorem mem_chr {p : Char → Bool} (h : d ∈ (chr p).run c) :
    ∃ x, p x ∧ Passes c [x] d ∧ d.caps = c.caps := by
  simp only [run] at h
  split at h
  · simp at h
  · next x xs hx =>
    split at h
    · next hp =>
      obtain rfl := List.mem_singleton.mp h
      exact ⟨x, hp, ⟨rfl, hx⟩, rfl⟩
    · simp at h

/-- An assertion that succeeds stays where it is. -/
theorem eq_of_mem_assert {ok : Bool} (h : d ∈ if ok then [c] else []) : ok ∧ d = c := by
  split at h
  · next hok => exact ⟨hok, List.mem_singleton.mp h⟩
  · simp at h

theorem mem_eos (h : d ∈ eos.run c) : d = c ∧ (c.rest = [] ∨ c.rest = ['\n']) := by
  obtain ⟨hok, rfl⟩ := eq_of_mem_assert h
  simpa using hok

/-- The pattern captures nothing and passes characters of the class `p` only. -/
def Only (p : Char → Prop) : Re → Prop
  | eps => True
  | chr q => ∀ x, q x → p x
  | seq a b => Only p a ∧ Only p b
  | alt a b => Only p a ∧ Only p b
  | star _ a => Only p a
  | group _ _ => False
  | bos => True
  | eos => True
  | wordEdge _ => True

/-- A match of such a pattern passes a text of the class and leaves the captures. -/
theorem across_of_only {p : Char → Prop} (h : d ∈ r.run c) (hr : r.Only p) : Across p c d := by
  induction r generalizing c d with
  | eps =>
    obtain rfl : d = c := List.mem_singleton.mp h
    exact Across.refl p d
  | chr q =>
    obtain ⟨x, hx, hpass, hcaps⟩ := mem_chr h
    refine ⟨[x], hpass, ?_, hcaps⟩
    simpa using hr x hx
  | seq a b iha ihb =>
    obtain ⟨e, he, hd⟩ := mem_seq h
    exact (iha he hr.1).trans (ihb hd hr.2)
  | alt a b iha ihb =>
    rcases mem_alt h with h | h
    · exact iha h hr.1
    · exact ihb h hr.2
  | star greedy a ih =>
    exact iterate_rel greedy (Across.refl p) Across.trans (fun c d hd => ih hd hr) _ c d h
  | group i a => exact hr.elim
  | bos =>
    obtain ⟨-, rfl⟩ := eq_of_mem_assert h
    exact Across.refl p d
  | eos =>
    obtain ⟨-, rfl⟩ := eq_of_mem_assert h
    exact Across.refl p d
  | wordEdge word =>
    obtain ⟨-, rfl⟩ := eq_of_mem_assert h
    exact Across.refl p d

section Derived

variable {p : Char → Prop}

theorem only_opt (h : a.Only p) : (opt a).Only p := ⟨h, trivial⟩

theorem only_plus (h : a.Only p) : (plus a).Only p := ⟨h, h⟩

theorem only_lazyPlus (h : a.Only p) : (lazyPlus a).Only p := ⟨h, h⟩

theorem only_upTo (h : a.Only p) (n : ℕ) : (upTo a n).Only p := by
  induction n with
  | zero => trivial
  | succ n ih => exact ⟨⟨h, ih⟩, trivial⟩

theorem only_all {as : List Re} (h : ∀ a ∈ as, a.Only p) : (all as).Only p := by
  induction as with
  | nil => trivial
  | cons a as ih =>
    have ha := h a List.mem_cons_self
    have has := ih fun b hb => h b (List.mem_cons_of_mem a hb)
    cases as with
    | nil => exact ha
    | cons b bs => exact ⟨ha, has⟩

theorem only_any {as : List Re} (h : ∀ a ∈ as, a.Only p) : (any as).Only p := by
  induction as with
  | nil =>
    intro x hx
    cases hx
  | cons a as ih =>
    have ha := h a List.mem_cons_self
    have has := ih fun b hb => h b (List.mem_cons_of_mem a hb)
    cases as with
    | nil => exact ha
    | cons b bs => exact ⟨ha, has⟩

end Derived

end Re

end Regex
