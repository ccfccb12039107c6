import Mathlib

/-!
# Little-endian numbers and readers over a byte string

A reader takes values from a position of a byte string on and may refuse. `Reads p bs v`
says that `p` finds `v` in `bs` and stops right behind it, whatever stands before and
after. Written messages are concatenations, so readers of their parts compose.
-/
namespace Codec

/-- The `w` lowest bytes of `n`, the lowest first. -/
@[grind =] def le : ℕ → ℕ → List UInt8
  | 0, _ => []
  | w + 1, n => UInt8.ofNat n :: le w (n / 256)

/-- The number that bytes spell, the lowest first. -/
@[grind =] def ofLe : List UInt8 → ℕ
  | [] => 0
  | b :: bs => b.toNat + 256 * ofLe bs

@[simp] theorem length_le (w n : ℕ) : (le w n).length = w := by
  induction w generalizing n with
  | zero => rfl
  | succ w ih => simp [le, ih]

theorem ofLe_le (w n : ℕ) : ofLe (le w n) = n % 256 ^ w := by
  induction w generalizing n with
  | zero => simp [le, ofLe, Nat.mod_one]
  | succ w ih =>
    have hb : (UInt8.ofNat n).toNat = n % 256 := rfl
    rw [le, ofLe, ih, hb, pow_succ', Nat.mod_mul]

theorem ofLe_lt (bs : List UInt8) : ofLe bs < 256 ^ bs.length := by
  induction bs with
  | nil => simp [ofLe]
  | cons b bs ih =>
    have hb : b.toNat < 256 := b.toNat_lt
    rw [ofLe, List.length_cons, pow_succ']
    omega

theorem ofLe_le_of_lt {w n : ℕ} (h : n < 256 ^ w) : ofLe (le w n) = n := by
  rw [ofLe_le, Nat.mod_eq_of_lt h]

theorem le_zero (w : ℕ) : le w 0 = List.replicate w 0 := by
  induction w with
  | zero => rfl
  | succ w ih => rw [le, Nat.zero_div, ih]; rfl

/-- The bytes of the number that bytes spell are those bytes, with zeros behind them. -/
theorem le_ofLe {w : ℕ} {bs : List UInt8} (h : bs.length ≤ w) :
    le w (ofLe bs) = bs ++ List.replicate (w - bs.length) 0 := by
  induction bs generalizing w with
  | nil => exact le_zero w
  | cons b bs ih =>
    obtain ⟨w, rfl⟩ : ∃ k, w = k + 1 := ⟨w - 1, by rw [List.length_cons] at h; omega⟩
    rw [List.length_cons] at h
    have hb := b.toNat_lt
    have hdiv : (b.toNat + 256 * ofLe bs) / 256 = ofLe bs := by omega
    have hbyte : UInt8.ofNat (b.toNat + 256 * ofLe bs) = b := by
      apply UInt8.toNat_inj.mp
      rw [UInt8.toNat_ofNat']
      omega
    rw [ofLe, le, hdiv, hbyte, ih (by omega), List.length_cons, Nat.add_sub_add_right, List.cons_append]

/-- Bytes and the position up to which they are read. -/
structure Cursor where
  bytes : List UInt8
  pos : ℕ
  deriving DecidableEq, Repr

abbrev Reading := StateT Cursor Option

/-- The next `n` bytes. -/
def take (n : ℕ) : Reading (List UInt8) := fun c =>
  if c.pos + n ≤ c.bytes.length then some ((c.bytes.drop c.pos).take n, { c with pos := c.pos + n })
  else none

/-- A value that is read already, or a refusal. -/
def ofOption {α : Type} (o : Option α) : Reading α := fun c => o.map fun x => (x, c)

/-- Reads `n` values with the same reader. -/
@[grind =] def times {α : Type} (p : Reading α) : ℕ → Reading (List α)
  | 0 => pure []
  | n + 1 => do
    let x ← p
    let xs ← times p n
    pure (x :: xs)

/-- `bs` stands at the cursor, `after` behind it. -/
def at_ (before bs after : List UInt8) : Cursor := ⟨before ++ (bs ++ after), before.length⟩

def Reads {α : Type} (p : Reading α) (bs : List UInt8) (v : α) : Prop :=
  ∀ before after, p (at_ before bs after) = some (v, at_ (before ++ bs) [] after)

section

variable {α β : Type} {p : Reading α} {v : α} {as bs : List UInt8} {f : α → Reading β} {w : β}
  {c c' : Cursor} {w' : α}

theorem bind_apply (p : Reading α) (f : α → Reading β) (c : Cursor) :
    (p >>= f) c = (p c).bind fun r => f r.1 r.2 := rfl

theorem bind_eq_some (h : (p >>= f) c = some (w, c')) :
    ∃ v c₁, p c = some (v, c₁) ∧ f v c₁ = some (w, c') := by
  rw [bind_apply] at h
  obtain ⟨⟨v, c₁⟩, hv, hw⟩ := Option.bind_eq_some_iff.mp h
  exact ⟨v, c₁, hv, hw⟩

theorem pure_eq_some (h : (pure v : Reading α) c = some (w', c')) : v = w' ∧ c = c' :=
  Prod.mk.inj (Option.some.inj h)

/-- What is left of two parts once the first is read. -/
theorem at_append (before bs after : List UInt8) :
    at_ before [] (bs ++ after) = at_ before bs after := rfl

theorem at_split (before as bs after : List UInt8) :
    at_ before (as ++ bs) after = at_ before as (bs ++ after) := by
  simp [at_]

/-- What a reader finds where it is known to find something. -/
theorem Reads.inv {before after : List UInt8} (hp : Reads p bs v)
    (h : p (at_ before bs after) = some (w', c')) : v = w' ∧ at_ (before ++ bs) [] after = c' := by
  rw [hp before after] at h
  exact Prod.mk.inj (Option.some.inj h)

theorem ofOption_eq_some {o : Option α} (h : ofOption o c = some (w', c')) : o = some w' ∧ c = c' := by
  obtain ⟨x, hx, hw⟩ := Option.map_eq_some_iff.mp h
  obtain ⟨rfl, rfl⟩ := Prod.mk.inj hw
  exact ⟨hx, rfl⟩

theorem reads_pure (v : α) : Reads (pure v) [] v := by
  intro before after
  simp [at_, pure, StateT.pure]

theorem reads_bind (hp : Reads p as v) (hf : Reads (f v) bs w) :
    Reads (p >>= f) (as ++ bs) w := by
  intro before after
  rw [bind_apply, at_split, hp before (bs ++ after), Option.bind_some, at_append,
    hf (before ++ as) after, List.append_assoc]

/-- Nothing is left to read after the first part. -/
theorem reads_bind_nil (hp : Reads p [] v) (hf : Reads (f v) bs w) : Reads (p >>= f) bs w := by
  have h : Reads (p >>= f) ([] ++ bs) w := reads_bind hp hf
  rwa [List.nil_append] at h

theorem reads_bind_last (hp : Reads p as v) (hf : Reads (f v) [] w) : Reads (p >>= f) as w := by
  have h : Reads (p >>= f) (as ++ []) w := reads_bind hp hf
  rwa [List.append_nil] at h

theorem reads_bind_pure (hp : Reads p as v) (g : α → β) :
    Reads (p >>= fun x => pure (g x)) as (g v) :=
  reads_bind_last hp (reads_pure (g v))

theorem reads_take (bs : List UInt8) : Reads (take bs.length) bs bs := by
  intro before after
  simp [take, at_]

theorem reads_ofOption {o : Option α} (h : o = some v) : Reads (ofOption o) [] v := by
  intro before after
  simp [ofOption, at_, h]

/-- A value that takes no bytes. -/
theorem reads_option {o : Option α} (h : o = some v) (hf : Reads (f v) bs w) :
    Reads (ofOption o >>= f) bs w :=
  reads_bind (reads_ofOption h) hf

theorem reads_take_of_length {n : ℕ} (h : bs.length = n) : Reads (take n) bs bs :=
  h ▸ reads_take bs

end

section

variable {α : Type} {p : Reading α} {enc : α → List UInt8} {ok : α → Prop}

theorem length_of_times {n : ℕ} {c c' : Cursor} {xs : List α}
    (h : times p n c = some (xs, c')) : xs.length = n := by
  induction n generalizing c c' xs with
  | zero =>
    obtain ⟨rfl, -⟩ := pure_eq_some h
    rfl
  | succ n ih =>
    obtain ⟨x, c₁, -, h⟩ := bind_eq_some h
    obtain ⟨ys, c₂, hys, h⟩ := bind_eq_some h
    obtain ⟨rfl, -⟩ := pure_eq_some h
    simp [ih hys]

theorem reads_times (xs : List α) (h : ∀ x ∈ xs, Reads p (enc x) x) :
    Reads (times p xs.length) (xs.flatMap enc) xs := by
  induction xs with
  | nil => exact reads_pure _
  | cons x xs ih =>
    have hx : Reads p (enc x) x := h x List.mem_cons_self
    have hxs := ih fun y hy => h y (List.mem_cons_of_mem x hy)
    exact reads_bind hx (reads_bind_pure hxs (x :: ·))

/-- If entries read back only when they are `ok`, a sequence does only when all are. -/
theorem forall_of_times (xs : List α) (hread : ∀ x ∈ xs, ok x → Reads p (enc x) x)
    (hok : ∀ x ∈ xs, ∀ before after c', p (at_ before (enc x) after) = some (x, c') → ok x)
    {before after : List UInt8} {c' : Cursor}
    (h : times p xs.length (at_ before (xs.flatMap enc) after) = some (xs, c')) :
    ∀ x ∈ xs, ok x := by
  induction xs generalizing before c' with
  | nil => exact List.forall_mem_nil _
  | cons x xs ih =>
    rw [List.flatMap_cons, at_split, List.length_cons] at h
    obtain ⟨y, c₁, hy, h⟩ := bind_eq_some h
    obtain ⟨ys, c₂, hys, h⟩ := bind_eq_some h
    obtain ⟨hcons, -⟩ := pure_eq_some h
    obtain ⟨rfl, rfl⟩ := List.cons.inj hcons
    have hx : ok y := hok y List.mem_cons_self _ _ _ hy
    obtain ⟨-, rfl⟩ := (hread y List.mem_cons_self hx).inv hy
    rw [at_append] at hys
    have hxs := ih (fun z hz => hread z (List.mem_cons_of_mem y hz))
      (fun z hz => hok z (List.mem_cons_of_mem y hz)) hys
    exact List.forall_mem_cons.mpr ⟨hx, hxs⟩

end

/-! ### Fixed blocks -/

/-- Numbers with their widths in bytes, one after the other. -/
def layOut (fs : List (ℕ × ℕ)) : List UInt8 := fs.flatMap fun f => le f.1 f.2

/-- The number of `w` bytes at offset `i`. -/
def field (b : List UInt8) (i w : ℕ) : Option ℕ :=
  if i + w ≤ b.length then some (ofLe ((b.drop i).take w)) else none

/-- Where the `k`th number stands. -/
def offset (fs : List (ℕ × ℕ)) (k : ℕ) : ℕ := ((fs.take k).map Prod.fst).sum

theorem length_layOut (fs : List (ℕ × ℕ)) : (layOut fs).length = (fs.map Prod.fst).sum := by
  simp [layOut, List.length_flatMap]

theorem ofLe_at (before after : List UInt8) (w n : ℕ) :
    ofLe (((before ++ (le w n ++ after)).drop before.length).take w) = n % 256 ^ w := by
  rw [List.drop_left, List.take_left' (length_le w n), ofLe_le]

theorem field_append {before after : List UInt8} {w n : ℕ} (hn : n < 256 ^ w) :
    field (before ++ (le w n ++ after)) before.length w = some n := by
  have hle : before.length + w ≤ (before ++ (le w n ++ after)).length := by simp
  rw [field, if_pos hle, ofLe_at, Nat.mod_eq_of_lt hn]

theorem field_layOut {fs : List (ℕ × ℕ)} {k w n : ℕ} (h : fs[k]? = some (w, n))
    (hn : n < 256 ^ w) : field (layOut fs) (offset fs k) w = some n := by
  obtain ⟨hk, hget⟩ := List.getElem?_eq_some_iff.mp h
  have hsplit : layOut fs = layOut (fs.take k) ++ (le w n ++ layOut (fs.drop (k + 1))) := by
    conv_lhs => rw [← List.take_append_drop k fs, List.drop_eq_getElem_cons hk, hget]
    simp [layOut]
  rw [hsplit, offset, ← length_layOut]
  exact field_append hn

end Codec
