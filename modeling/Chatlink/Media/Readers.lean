import Chatlink.Media.Symbols

/-!
# Reading a deflate stream

A reader stands for the list of bits that are left. What takes bits is known by the bits it takes and what it
makes of them, or by how many it takes at least and that it never stops.
-/
namespace Chatlink.Media.Inflate

open BitLists Canonical Loops
open Tachyon (Error)

namespace Bits

/-- The bits that are left. -/
def rest (s : Bits) : List Bool := little s.n s.buf ++ ofBytesLittle (s.data.drop s.at_)

/-- What holds of a reader: nothing stands above the bits at hand. -/
structure Sound (s : Bits) : Prop where
  room : s.n ≤ 64
  word : s.buf < 2 ^ s.n
  inside : s.at_ ≤ s.data.length

theorem length_rest (s : Bits) : s.rest.length = s.left := by
  rw [rest, left, List.length_append, length_little, length_ofBytesLittle, List.length_drop]

/-- One more byte at hand. -/
theorem Sound.byte {s : Bits} (h : s.Sound) (hn : s.n ≤ 56) (hat : s.at_ < s.data.length) :
    let s' : Bits := { s with at_ := s.at_ + 1, buf := s.buf ||| (s.data.getD s.at_ 0).toNat <<< s.n, n := s.n + 8 }
    s'.Sound ∧ s'.rest = s.rest := by
  have hb : s.data.getD s.at_ 0 = s.data[s.at_] := by
    rw [List.getD_eq_getElem?_getD, List.getElem?_eq_getElem hat, Option.getD_some]
  have hbit : ∀ i, (s.buf ||| (s.data.getD s.at_ 0).toNat <<< s.n).testBit i =
      if i < s.n then s.buf.testBit i else s.data[s.at_].toNat.testBit (i - s.n) := by
    intro i
    rw [hb, Nat.testBit_or, Nat.testBit_shiftLeft]
    split_ifs with hi
    · simp [Nat.not_le.2 hi]
    · have hhigh : s.buf.testBit i = false :=
        Nat.testBit_lt_two_pow (h.word.trans_le (Nat.pow_le_pow_right (by norm_num) (Nat.not_lt.1 hi)))
      simp [hhigh, Nat.not_lt.1 hi]
  refine ⟨⟨by simp only; omega, ?_, hat⟩, ?_⟩
  · apply Nat.lt_pow_two_of_testBit
    intro i hi
    simp only at hi
    rw [hbit, if_neg (by omega)]
    exact Nat.testBit_lt_two_pow (s.data[s.at_].toNat_lt.trans_le (Nat.pow_le_pow_right (by norm_num) (by omega)))
  · have hlow : little s.n (s.buf ||| (s.data.getD s.at_ 0).toNat <<< s.n) = little s.n s.buf := by
      apply little_congr
      intro i hi
      rw [hbit, if_pos hi]
    have hhigh : little 8 ((s.buf ||| (s.data.getD s.at_ 0).toNat <<< s.n) >>> s.n) = little 8 s.data[s.at_].toNat := by
      apply little_congr
      intro i _
      rw [Nat.testBit_shiftRight, hbit, if_neg (by omega), Nat.add_sub_cancel_left]
    simp only [rest]
    rw [little_add, hlow, hhigh, List.drop_eq_getElem_cons hat, List.append_assoc]
    rfl

/-- The buffer filled: the same bits are left, and either many are at hand or all. -/
theorem Sound.more {s : Bits} (h : s.Sound) :
    s.more.Sound ∧ s.more.rest = s.rest ∧ s.more.data = s.data ∧ (56 < s.more.n ∨ s.more.at_ = s.data.length) := by
  fun_induction Bits.more s with
  | case1 s hmore ih =>
    obtain ⟨hsound, hrest⟩ := h.byte hmore.1 hmore.2
    obtain ⟨h₁, h₂, h₃, h₄⟩ := ih hsound
    exact ⟨h₁, h₂.trans hrest, h₃, h₄⟩
  | case2 s hfull =>
    refine ⟨h, rfl, rfl, ?_⟩
    have hin := h.inside
    omega

end Bits

/-! ## Bits taken -/

variable {α β : Type}

theorem bind_apply (p : Inflating α) (f : α → Inflating β) (s : Bits) :
    (p >>= f) s = (p s >>= fun r => f r.1 r.2 : Decoding (β × Bits)) := rfl

/-- The value of the next `k` bits. -/
theorem peek_eq {s : Bits} (h : s.Sound) {k : ℕ} (hk : k ≤ 56) :
    peek k s = some (.ok (toNat (s.rest.take k), s.more)) := by
  obtain ⟨hsound, hrest, -, hfull⟩ := h.more
  have hvalue : s.more.buf &&& (1 <<< k - 1) = toNat (s.rest.take k) := by
    rw [Nat.one_shiftLeft, Nat.and_two_pow_sub_one_eq_mod, ← hrest, Bits.rest]
    apply Nat.eq_of_testBit_eq
    intro i
    rw [Nat.testBit_mod_two_pow, testBit_toNat, List.getD_eq_getElem?_getD, List.getElem?_take]
    rcases lt_or_ge i k with hi | hi
    · rw [if_pos hi]
      rcases lt_or_ge i s.more.n with hn | hn
      · rw [List.getElem?_append_left (by simpa using hn), ← List.getD_eq_getElem?_getD, getD_little hn]
        simp [hi]
      · have hat : s.more.at_ = s.more.data.length := by
          have hdata := h.more.2.2.1
          rw [hdata]
          omega
        have hhigh : s.more.buf.testBit i = false :=
          Nat.testBit_lt_two_pow (hsound.word.trans_le (Nat.pow_le_pow_right (by norm_num) hn))
        rw [hat, List.drop_length, List.getElem?_append_right (by simpa using hn)]
        simp [hhigh, ofBytesLittle]
    · simp [Nat.not_lt.2 hi]
  unfold peek
  simp only [hvalue]
  rfl

/-- Bits at hand are dropped. -/
theorem skip_eq {s : Bits} (h : s.Sound) {k : ℕ} (hk : k ≤ s.n) :
    ∃ s', skip k s = some (.ok ((), s')) ∧ s'.Sound ∧ s'.data = s.data ∧ s'.rest = s.rest.drop k := by
  refine ⟨{ s with buf := s.buf >>> k, n := s.n - k }, ?_, ⟨?_, ?_, h.inside⟩, rfl, ?_⟩
  · unfold skip
    rw [if_neg (Nat.not_lt.2 hk)]
    rfl
  · exact (Nat.sub_le _ _).trans h.room
  · rw [Nat.shiftRight_eq_div_pow, Nat.div_lt_iff_lt_mul (by positivity), ← pow_add, Nat.sub_add_cancel hk]
    exact h.word
  · have hsplit := little_add k (s.n - k) s.buf
    rw [Nat.add_sub_cancel' hk] at hsplit
    simp only [Bits.rest]
    rw [hsplit, List.append_assoc, List.drop_left' (length_little k s.buf)]

/-- With the buffer filled, dropping bits that are left goes well, and others make an error. -/
theorem skip_more {s : Bits} (h : s.Sound) {k : ℕ} (hk : k ≤ 56) :
    if k ≤ s.rest.length then
      ∃ s', skip k s.more = some (.ok ((), s')) ∧ s'.Sound ∧ s'.data = s.data ∧ s'.rest = s.rest.drop k
    else ∃ e, skip k s.more = some (.error e) := by
  obtain ⟨hsound, hrest, hdata, hfull⟩ := h.more
  have hlen := s.more.length_rest
  rw [hrest, Bits.left, hdata] at hlen
  split_ifs with hle
  · obtain ⟨s', hskip, hs', hdata', hrest'⟩ := skip_eq hsound (show k ≤ s.more.n by omega)
    exact ⟨s', hskip, hs', hdata'.trans hdata, hrest ▸ hrest'⟩
  · refine ⟨bad "a deflate stream ends early", ?_⟩
    unfold skip
    rw [if_pos (by omega)]
    rfl

theorem take_eq {s : Bits} (h : s.Sound) {k : ℕ} (hk : k ≤ 56) :
    if k ≤ s.rest.length then
      ∃ s', take k s = some (.ok (toNat (s.rest.take k), s')) ∧ s'.Sound ∧ s'.data = s.data ∧ s'.rest = s.rest.drop k
    else ∃ e, take k s = some (.error e) := by
  have hskip := skip_more h hk
  have htake : take k s = (skip k s.more >>= fun r => pure (toNat (s.rest.take k), r.2) : Decoding (ℕ × Bits)) := by
    unfold take
    rw [bind_apply, peek_eq h hk]
    rfl
  rw [htake]
  split_ifs with hle
  · rw [if_pos hle] at hskip
    obtain ⟨s', hskip, hs'⟩ := hskip
    exact ⟨s', by rw [hskip]; rfl, hs'⟩
  · rw [if_neg hle] at hskip
    obtain ⟨e, hskip⟩ := hskip
    exact ⟨e, by rw [hskip]; rfl⟩

/-! ## Readers that take certain bits -/

/-- Where `w` comes next, `p` gives `v` and leaves what follows. -/
def Reads (p : Inflating α) (w : List Bool) (v : α) (s : Bits) : Prop :=
  ∀ r, s.rest = w ++ r → ∃ s', p s = some (.ok (v, s')) ∧ s'.Sound ∧ s'.data = s.data ∧ s'.rest = r

theorem reads_pure {s : Bits} (h : s.Sound) (v : α) : Reads (pure v) [] v s := by
  intro r hr
  exact ⟨s, rfl, h, rfl, hr⟩

theorem reads_bind {p : Inflating α} {f : α → Inflating β} {w w' : List Bool} {v : α} {u : β} {s : Bits}
    (hp : Reads p w v s)
    (hf : ∀ s', s'.Sound → s'.data = s.data → s'.rest.length + w.length = s.rest.length → Reads (f v) w' u s') :
    Reads (p >>= f) (w ++ w') u s := by
  intro r hr
  rw [List.append_assoc] at hr
  obtain ⟨s₁, hrun, hs₁, hdata, hrest⟩ := hp (w' ++ r) hr
  have hlen : s₁.rest.length + w.length = s.rest.length := by
    simp only [hr, hrest, List.length_append]
    omega
  obtain ⟨s₂, hrun', hs₂, hdata', hrest'⟩ := hf s₁ hs₁ hdata hlen r hrest
  refine ⟨s₂, ?_, hs₂, hdata'.trans hdata, hrest'⟩
  rw [bind_apply, hrun]
  exact hrun'

theorem reads_bind_last {p : Inflating α} {f : α → Inflating β} {w : List Bool} {v : α} {u : β} {s : Bits}
    (hp : Reads p w v s) (hf : ∀ s', s'.Sound → Reads (f v) [] u s') : Reads (p >>= f) w u s := by
  have h := reads_bind hp fun s' hs' _ _ => hf s' hs'
  rwa [List.append_nil] at h

theorem reads_take {s : Bits} (h : s.Sound) {k v : ℕ} (hk : k ≤ 56) (hv : v < 2 ^ k) :
    Reads (take k) (little k v) v s := by
  intro r hr
  have htake := take_eq h hk
  have hlen : k ≤ s.rest.length := by
    rw [hr, List.length_append, length_little]
    omega
  rw [if_pos hlen, hr, List.take_left' (length_little k v), List.drop_left' (length_little k v),
    toNat_little_of_lt hv] at htake
  exact htake

/-- What is found without a read takes no bits. -/
theorem reads_option {o : Option α} {v : α} (ho : o = some v) {f : α → Inflating β} {w : List Bool} {u : β} {s : Bits}
    (hf : Reads (f v) w u s) : Reads (liftM o >>= f) w u s := by
  subst ho
  exact hf

theorem reads_get {f : Bits → Inflating β} {w : List Bool} {u : β} {s : Bits} (hf : Reads (f s) w u s) :
    Reads (get >>= f) w u s := hf

/-! ## Readers that make an error -/

def Errs (p : Inflating α) (s : Bits) : Prop := ∃ e, p s = some (.error e)

theorem errs_bind {p : Inflating α} {s : Bits} (hp : Errs p s) (f : α → Inflating β) : Errs (p >>= f) s := by
  obtain ⟨e, he⟩ := hp
  exact ⟨e, by rw [bind_apply, he]; rfl⟩

theorem errs_bind_ok {p : Inflating α} {f : α → Inflating β} {s s' : Bits} {v : α} (hp : p s = some (.ok (v, s')))
    (hf : Errs (f v) s') : Errs (p >>= f) s := by
  obtain ⟨e, he⟩ := hf
  exact ⟨e, by rw [bind_apply, hp]; exact he⟩

theorem errs_option {o : Option α} {v : α} (ho : o = some v) {f : α → Inflating β} {s : Bits} (hf : Errs (f v) s) :
    Errs (liftM o >>= f) s := by
  subst ho
  exact hf

/-! ## Readers that never stop -/

/-- `p` ends, and where it ends well at least `k` bits are taken. -/
def Ends (k : ℕ) (p : Inflating α) (Q : α → Prop) (s : Bits) : Prop :=
  ∃ r, p s = some r ∧ ∀ v s', r = .ok (v, s') → s'.Sound ∧ s'.data = s.data ∧ s'.left + k ≤ s.left ∧ Q v

theorem ends_pure {s : Bits} (h : s.Sound) {v : α} {Q : α → Prop} (hv : Q v) : Ends 0 (pure v) Q s := by
  refine ⟨.ok (v, s), rfl, fun u s' heq => ?_⟩
  obtain ⟨rfl, rfl⟩ := Prod.mk.inj (Except.ok.inj heq)
  exact ⟨h, rfl, le_rfl, hv⟩

theorem ends_throw (e : Error) (k : ℕ) (Q : α → Prop) (s : Bits) : Ends k (throw e) Q s :=
  ⟨.error e, rfl, nofun⟩

theorem ends_throw_bind (e : Error) (k : ℕ) (f : α → Inflating β) (Q : β → Prop) (s : Bits) :
    Ends k (throw e >>= f) Q s :=
  ⟨.error e, rfl, nofun⟩

theorem Ends.mono {k k' : ℕ} {p : Inflating α} {Q Q' : α → Prop} {s : Bits} (h : Ends k p Q s) (hk : k' ≤ k)
    (hQ : ∀ v, Q v → Q' v) : Ends k' p Q' s := by
  obtain ⟨r, hr, hok⟩ := h
  refine ⟨r, hr, fun v s' heq => ?_⟩
  obtain ⟨hs, hdata, hleft, hv⟩ := hok v s' heq
  exact ⟨hs, hdata, by omega, hQ v hv⟩

theorem ends_bind {k j : ℕ} {p : Inflating α} {f : α → Inflating β} {Q : α → Prop} {Q' : β → Prop} {s : Bits}
    (hp : Ends k p Q s) (hf : ∀ v s', s'.Sound → s'.left + k ≤ s.left → Q v → Ends j (f v) Q' s') :
    Ends (k + j) (p >>= f) Q' s := by
  obtain ⟨r, hr, hok⟩ := hp
  cases r with
  | error e => exact ⟨.error e, by rw [bind_apply, hr]; rfl, nofun⟩
  | ok v =>
    obtain ⟨v, s₁⟩ := v
    obtain ⟨hs₁, hdata, hleft, hv⟩ := hok v s₁ rfl
    obtain ⟨r', hr', hok'⟩ := hf v s₁ hs₁ hleft hv
    refine ⟨r', by rw [bind_apply, hr]; exact hr', fun u s₂ heq => ?_⟩
    obtain ⟨hs₂, hdata', hleft', hu⟩ := hok' u s₂ heq
    exact ⟨hs₂, hdata'.trans hdata, by omega, hu⟩

/-- After something that takes no bits. -/
theorem ends_bind_zero {k : ℕ} {p : Inflating α} {f : α → Inflating β} {Q : α → Prop} {Q' : β → Prop} {s : Bits}
    (hp : Ends 0 p Q s) (hf : ∀ v s', s'.Sound → s'.left ≤ s.left → Q v → Ends k (f v) Q' s') :
    Ends k (p >>= f) Q' s := by
  have h := ends_bind hp fun v s' hs hleft hv => hf v s' hs hleft hv
  rwa [Nat.zero_add] at h

theorem ends_option {o : Option α} {v : α} (ho : o = some v) {k : ℕ} {f : α → Inflating β} {Q : β → Prop} {s : Bits}
    (hf : Ends k (f v) Q s) : Ends k (liftM o >>= f) Q s := by
  subst ho
  exact hf

theorem ends_get {k : ℕ} {f : Bits → Inflating β} {Q : β → Prop} {s : Bits} (hf : Ends k (f s) Q s) :
    Ends k (get >>= f) Q s := hf

theorem ends_take {s : Bits} (h : s.Sound) {k : ℕ} (hk : k ≤ 56) : Ends k (take k) (· < 2 ^ k) s := by
  have htake := take_eq h hk
  split_ifs at htake with hlen
  · obtain ⟨s', hrun, hs', hdata, hrest⟩ := htake
    refine ⟨_, hrun, fun v s'' heq => ?_⟩
    obtain ⟨rfl, rfl⟩ := Prod.mk.inj (Except.ok.inj heq)
    refine ⟨hs', hdata, ?_, ?_⟩
    · rw [← Bits.length_rest, ← Bits.length_rest, hrest, List.length_drop]
      omega
    · exact (toNat_lt _).trans_le (Nat.pow_le_pow_right (by norm_num) (List.length_take_le k _))
  · obtain ⟨e, hrun⟩ := htake
    exact ⟨_, hrun, nofun⟩

theorem ends_take_zero {s : Bits} (h : s.Sound) {k : ℕ} (hk : k ≤ 56) : Ends 0 (take k) (· < 2 ^ k) s :=
  (ends_take h hk).mono (Nat.zero_le k) fun _ hv => hv

/-- A loop over an interval that keeps something. -/
theorem ends_foldlM {σ : Type} {step : σ → ℕ → Inflating σ} {P : σ → Prop} {s : Bits} {t : σ} {l : List ℕ} (h : s.Sound)
    (ht : P t) (hstep : ∀ t, P t → ∀ i ∈ l, ∀ s', s'.Sound → Ends 0 (step t i) P s') : Ends 0 (l.foldlM step t) P s := by
  induction l generalizing s t with
  | nil => exact ends_pure h ht
  | cons i l ih =>
    rw [List.foldlM_cons]
    exact ends_bind_zero (hstep t ht i (by simp) s h) fun t' s' hs' _ ht' =>
      ih hs' ht' fun t ht j hj => hstep t ht j (by simp [hj])

end Chatlink.Media.Inflate
