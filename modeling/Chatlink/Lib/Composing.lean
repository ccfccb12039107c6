import Chatlink.Lib.Combining

/-!
# Characters made of others

A script says of each character its class and the characters it is made of. A text is taken apart, its marks put in
order, and composed again into the characters that are the same as a starter and what it sees. The composed form of a
text is the only one, and its own composed form.
-/
namespace Combining

variable {α : Type} {cc : α → ℕ} {a b c d p q : α} {l m x y z out out' rest r r' : List α}

/-- Characters with a class, and what each is made of, which never leads back to it. Some are never composed. -/
structure Script (α : Type) where
  cc : α → ℕ
  parts : α → List α
  excluded : α → Prop
  acyclic : WellFounded fun a c => a ∈ parts c

namespace Script

variable (U : Script α)

/-- A character taken apart as far as it goes. -/
def full (c : α) : List α :=
  if U.parts c = [] then [c] else (U.parts c).attach.flatMap fun a => full a.1
termination_by U.acyclic.wrap c
decreasing_by exact a.2

/-- The characters of a text taken apart, in order. -/
def Canonical (text d : List α) : Prop := Reorders U.cc (text.flatMap U.full) d ∧ Ordered U.cc d

def Equivalent (x y : List α) : Prop := ∃ d, U.Canonical x d ∧ U.Canonical y d

/-- A character that may be composed. -/
def Primary (p : α) : Prop := U.parts p ≠ [] ∧ ¬U.excluded p

/-- The primary character that the two are the same as. -/
def Forms (l c p : α) : Prop := U.Primary p ∧ U.Equivalent [p] [l, c]

/-- The text taken apart, put in order and composed. -/
def Composed (text r : List α) : Prop := ∃ d, U.Canonical text d ∧ Composes U.cc U.Forms [] d r

/-- A character that composition may leave. -/
def Stays (c : α) : Prop := U.parts c = [] ∨ U.Primary c

/-- What the data of a script keep: what a character is taken apart into is in order, and a primary character is made
of two, a starter that may stay and one that is not taken apart, which no other is made of. -/
structure Lawful : Prop where
  ordered : ∀ c, Ordered U.cc (U.full c)
  pair : ∀ p, U.Primary p → ∃ a b, U.parts p = [a, b] ∧ U.cc a = 0 ∧ U.cc p = 0 ∧ U.Stays a ∧ U.parts b = []
  single : ∀ p q, U.Primary p → U.Primary q → U.parts p = U.parts q → p = q

/-- The primary character made of the two. -/
def Pairs (l c p : α) : Prop := U.Primary p ∧ U.parts p = [l, c]

variable {U}

theorem full_eq (c : α) : U.full c = if U.parts c = [] then [c] else (U.parts c).flatMap U.full := by
  rw [full]
  split_ifs
  · rfl
  · simp

theorem full_of_whole (h : U.parts c = []) : U.full c = [c] := by rw [full_eq, if_pos h]

theorem full_of_pair (h : U.parts p = [a, b]) (hb : U.parts b = []) : U.full p = U.full a ++ [b] := by
  rw [full_eq, if_neg (by rw [h]; exact List.cons_ne_nil _ _), h, List.flatMap_cons, List.flatMap_singleton,
    full_of_whole hb]

theorem full_ne_nil (c : α) : U.full c ≠ [] := by
  induction c using U.acyclic.induction with
  | h c ih =>
    rw [full_eq]
    split_ifs with h
    · exact List.cons_ne_nil c []
    · obtain ⟨a, ha⟩ := List.exists_mem_of_ne_nil _ h
      intro hnil
      exact ih a ha (List.flatMap_eq_nil_iff.mp hnil a ha)

theorem full_ne_singleton (h : U.parts p = [a, b]) (hb : U.parts b = []) (c : α) : U.full p ≠ [c] := by
  intro hfull
  rw [full_of_pair h hb] at hfull
  have hlength := congrArg List.length hfull
  have ha := List.length_pos_of_ne_nil (full_ne_nil (U := U) a)
  rw [List.length_append, List.length_singleton, List.length_singleton] at hlength
  omega

/-- Nothing is left to take apart. -/
theorem whole_of_mem_full (h : a ∈ U.full c) : U.parts a = [] := by
  induction c using U.acyclic.induction with
  | h c ih =>
    rw [full_eq] at h
    split_ifs at h with hc
    · rw [List.mem_singleton.mp h]
      exact hc
    · obtain ⟨d, hd, ha⟩ := List.mem_flatMap.mp h
      exact ih d hd ha

theorem flatMap_full_of_whole (h : ∀ a ∈ l, U.parts a = []) : l.flatMap U.full = l := by
  induction l with
  | nil => rfl
  | cons a l ih =>
    rw [List.flatMap_cons, full_of_whole (h a List.mem_cons_self), ih fun b hb => h b (List.mem_cons_of_mem a hb)]
    rfl

theorem canonical_iff : U.Canonical l m ↔ m = settled U.cc (l.flatMap U.full) := by
  constructor
  · intro h
    exact eq_settled h.1 h.2
  · rintro rfl
    exact ⟨reorders_settled _, ordered_settled _⟩

theorem equivalent_iff :
    U.Equivalent l m ↔ settled U.cc (l.flatMap U.full) = settled U.cc (m.flatMap U.full) := by
  constructor
  · rintro ⟨d, hl, hm⟩
    rw [← canonical_iff.mp hl, ← canonical_iff.mp hm]
  · intro h
    exact ⟨_, canonical_iff.mpr rfl, canonical_iff.mpr h⟩

/-! ### Which characters are composed -/

namespace Lawful

variable (hU : U.Lawful)
include hU

/-- No two characters that may stay are taken apart into the same. -/
theorem full_injective (ha : U.Stays a) (hb : U.Stays b) (h : U.full a = U.full b) : a = b := by
  induction a using U.acyclic.induction generalizing b with
  | h a ih =>
    obtain ha | ha := ha
    · rw [full_of_whole ha] at h
      obtain hb | hb := hb
      · rw [full_of_whole hb] at h
        exact List.singleton_inj.mp h
      · obtain ⟨d, e, hparts, -, -, -, he⟩ := hU.pair b hb
        exact absurd h.symm (full_ne_singleton hparts he a)
    · obtain ⟨d, e, hparts, -, -, hd, he⟩ := hU.pair a ha
      obtain hb | hb := hb
      · rw [full_of_whole hb] at h
        exact absurd h (full_ne_singleton hparts he b)
      · obtain ⟨d', e', hparts', -, -, hd', he'⟩ := hU.pair b hb
        rw [full_of_pair hparts he, full_of_pair hparts' he'] at h
        obtain ⟨hfull, heq⟩ := List.append_inj' h rfl
        have hdd : d = d' := ih d (by rw [hparts]; exact List.mem_cons_self) hd hd' hfull
        refine hU.single a b ha hb ?_
        rw [hparts, hparts', hdd, List.singleton_inj.mp heq]

theorem settled_full (c : α) : settled U.cc (U.full c) = U.full c := settled_of_ordered (hU.ordered c)

theorem forms_iff : U.Forms a c p ↔ U.Primary p ∧ U.full p = settled U.cc (U.full a ++ U.full c) := by
  rw [Forms, equivalent_iff, List.flatMap_singleton, hU.settled_full, List.flatMap_cons, List.flatMap_singleton]

theorem forms_unique (hp : U.Forms a c p) (hq : U.Forms a c q) : p = q := by
  rw [hU.forms_iff] at hp hq
  exact hU.full_injective (.inr hp.1) (.inr hq.1) (hp.2.trans hq.2.symm)

theorem forms_of_pairs (h : U.Pairs a c p) : U.Forms a c p := by
  obtain ⟨hp, hparts⟩ := h
  obtain ⟨_, _, hparts', -, -, -, hc⟩ := hU.pair p hp
  rw [hparts] at hparts'
  cases hparts'
  have hfull := full_of_pair hparts hc
  refine hU.forms_iff.mpr ⟨hp, ?_⟩
  rw [full_of_whole hc, ← hfull, hU.settled_full]

/-- A character that goes in order behind what a starter is taken apart into forms with it what the two make. -/
theorem pairs_of_forms (h : U.Forms a c p) (ha : U.Stays a) (hc : U.parts c = []) (hord : Ordered U.cc (U.full a ++ [c])) :
    U.Pairs a c p := by
  obtain ⟨hp, hfull⟩ := hU.forms_iff.mp h
  obtain ⟨d, e, hparts, -, -, hd, he⟩ := hU.pair p hp
  rw [full_of_pair hparts he, full_of_whole hc, settled_of_ordered hord] at hfull
  obtain ⟨hda, hec⟩ := List.append_inj' hfull rfl
  refine ⟨hp, ?_⟩
  rw [hparts, hU.full_injective hd ha hda, List.singleton_inj.mp hec]

end Lawful

/-! ### A run of compositions -/

/-- No mark to come belongs before one of class `k`. -/
def Follows (cc : α → ℕ) (k : ℕ) (rest : List α) : Prop := ∀ c ∈ rest.head?, cc c = 0 ∨ k ≤ cc c

theorem follows_of_ordered (h : Ordered cc (c :: rest)) : Follows cc (cc c) rest := by
  cases rest with
  | nil => exact fun _ he => nomatch he
  | cons d rest =>
    have hright := (List.isChain_cons_cons.mp h).1
    intro e he
    cases he
    by_cases hd : cc d = 0
    · exact .inl hd
    · exact .inr (Nat.not_lt.mp fun hlt => hright ⟨hlt, by omega⟩)

/-- What has been composed: each character may stay, and the last starter ends in no class above `k`. -/
structure Sound (U : Script α) (out : List α) (k : ℕ) : Prop where
  stays : ∀ a ∈ out, U.Stays a
  ends : ∀ x l z, out = x ++ l :: z → U.cc l = 0 → (∀ b ∈ z, U.cc b ≠ 0) → ∀ e ∈ (U.full l).getLast?, U.cc e ≤ k

theorem sound_nil : U.Sound [] 0 where
  stays a ha := nomatch ha
  ends x l z h := by simp at h

namespace Lawful

variable {k : ℕ} (hU : U.Lawful)
include hU

theorem cc_of_primary (h : U.Primary p) : U.cc p = 0 := by
  obtain ⟨_, _, -, -, hp, -, -⟩ := hU.pair p h
  exact hp

/-- A mark that has stayed is not taken apart. -/
theorem whole_of_mark (h : U.Stays a) (ha : U.cc a ≠ 0) : U.parts a = [] := by
  obtain h | h := h
  · exact h
  · exact absurd (hU.cc_of_primary h) ha

theorem full_of_pairs (h : U.Pairs a c p) : U.full p = U.full a ++ [c] := by
  obtain ⟨_, _, hparts, -, -, -, hc⟩ := hU.pair p h.1
  rw [h.2] at hparts
  cases hparts
  exact full_of_pair h.2 hc

/-- One character more: what it leaves is sound up to its class. -/
theorem sound_joins (hs : U.Sound out k) (hc : U.parts c = []) (hk : U.cc c = 0 ∨ k ≤ U.cc c)
    (h : Joins U.cc U.Pairs out c out') : U.Sound out' (U.cc c) := by
  cases h with
  | @join x l z p hsees hp =>
    constructor
    · intro a ha
      obtain ha | ha := List.mem_append.mp ha
      · exact hs.stays a (by rw [hsees.1]; exact List.mem_append_left _ ha)
      · obtain rfl | ha := List.mem_cons.mp ha
        · exact .inr hp.1
        · exact hs.stays a (by rw [hsees.1]; exact List.mem_append_right x (List.mem_cons_of_mem l ha))
    · intro x' l' z' heq hl' hz' e he
      obtain ⟨-, rfl, -⟩ := last_starter heq (hU.cc_of_primary hp.1) hl' hsees.marks hz'
      rw [hU.full_of_pairs hp, List.getLast?_concat] at he
      cases he
      exact le_rfl
  | keep hkeep =>
    constructor
    · intro a ha
      obtain ha | ha := List.mem_append.mp ha
      · exact hs.stays a ha
      · rw [List.mem_singleton.mp ha]
        exact .inl hc
    · intro x l z heq hl hz e he
      obtain rfl | ⟨z, d, rfl⟩ := z.eq_nil_or_concat
      · obtain ⟨-, hcl⟩ := List.append_inj' heq rfl
        cases hcl
        rw [full_of_whole hc] at he
        cases he
        exact le_rfl
      · rw [List.concat_eq_append, ← List.cons_append, ← List.append_assoc] at heq
        obtain ⟨hout, hcd⟩ := List.append_inj' heq rfl
        cases hcd
        have hmark : U.cc c ≠ 0 := hz c (by simp)
        have he' := hs.ends x l z hout hl (fun b hb => hz b (by simp [hb])) e he
        omega

/-- The character that a starter sees goes in order behind what the starter is taken apart into. -/
theorem ordered_concat (hs : U.Sound out k) (hk : U.cc c = 0 ∨ k ≤ U.cc c) (h : Sees U.cc c out x a z) :
    Ordered U.cc (U.full a ++ [c]) := by
  refine List.isChain_append.mpr ⟨hU.ordered a, List.isChain_singleton c, ?_⟩
  intro e he d hd hwrong
  cases hd
  have hle := hs.ends x a z h.1 h.2.1 h.marks e he
  obtain ⟨hlt, hpos⟩ := hwrong
  omega

theorem joins_forms (hs : U.Sound out k) (hc : U.parts c = []) (hk : U.cc c = 0 ∨ k ≤ U.cc c)
    (h : Joins U.cc U.Pairs out c out') : Joins U.cc U.Forms out c out' := by
  cases h with
  | join hsees hp => exact .join hsees (hU.forms_of_pairs hp)
  | keep hkeep =>
    refine .keep fun x l z p hsees hp => hkeep x l z p hsees ?_
    have hl : U.Stays l := hs.stays l (by rw [hsees.1]; simp)
    exact hU.pairs_of_forms hp hl hc (hU.ordered_concat hs hk hsees)

/-- To look up the pairs is to look for primary characters that are the same as the two. -/
theorem composes_forms (h : Composes U.cc U.Pairs out rest r) (hs : U.Sound out k) (hk : Follows U.cc k rest)
    (hwhole : ∀ a ∈ rest, U.parts a = []) (hord : Ordered U.cc rest) : Composes U.cc U.Forms out rest r := by
  induction h generalizing k with
  | done out => exact .done out
  | @next out c out' rest r hstep _ ih =>
    have hc : U.parts c = [] := hwhole c List.mem_cons_self
    have hkc : U.cc c = 0 ∨ k ≤ U.cc c := hk c rfl
    refine .next (hU.joins_forms hs hc hkc hstep) ?_
    exact ih (hU.sound_joins hs hc hkc hstep) (follows_of_ordered hord) (fun a ha => hwhole a (List.mem_cons_of_mem c ha))
      hord.tail

/-- One character more: what has been composed is taken apart, in order, into the same. -/
theorem settled_joins (hs : U.Sound out k) (hc : U.parts c = []) (h : Joins U.cc U.Pairs out c out') (y : List α) :
    settled U.cc (out'.flatMap U.full ++ y) = settled U.cc (out.flatMap U.full ++ c :: y) := by
  cases h with
  | @join x l z p hsees hp =>
    have hz : z.flatMap U.full = z := by
      refine flatMap_full_of_whole fun b hb => ?_
      have hb' : b ∈ out := by rw [hsees.1]; exact List.mem_append_right x (List.mem_cons_of_mem l hb)
      exact hU.whole_of_mark (hs.stays b hb') (hsees.marks b hb)
    have hleft : (x ++ p :: z).flatMap U.full ++ y = (x.flatMap U.full ++ U.full l) ++ c :: (z ++ y) := by
      simp [hU.full_of_pairs hp, hz]
    have hright : out.flatMap U.full ++ c :: y = (x.flatMap U.full ++ U.full l) ++ (z ++ c :: y) := by
      simp [hsees.1, hz]
    rw [hleft, hright]
    exact settled_before hsees.wrong _ y
  | keep hkeep =>
    rw [List.flatMap_append, List.flatMap_singleton, full_of_whole hc, List.append_assoc]
    rfl

theorem settled_composes (h : Composes U.cc U.Pairs out rest r) (hs : U.Sound out k) (hk : Follows U.cc k rest)
    (hwhole : ∀ a ∈ rest, U.parts a = []) (hord : Ordered U.cc rest) :
    settled U.cc (r.flatMap U.full) = settled U.cc (out.flatMap U.full ++ rest) := by
  induction h generalizing k with
  | done out => rw [List.append_nil]
  | @next out c out' rest r hstep _ ih =>
    have hc : U.parts c = [] := hwhole c List.mem_cons_self
    have hsound := hU.sound_joins hs hc (hk c rfl) hstep
    have hrest := ih hsound (follows_of_ordered hord) (fun a ha => hwhole a (List.mem_cons_of_mem c ha)) hord.tail
    rw [hrest, hU.settled_joins hs hc hstep]

end Lawful

/-! ### The composed text -/

theorem Canonical.whole (h : U.Canonical l m) : ∀ a ∈ m, U.parts a = [] := by
  intro a ha
  obtain ⟨c, -, hc⟩ := List.mem_flatMap.mp ((mem_reorders h.1).mpr ha)
  exact whole_of_mem_full hc

namespace Lawful

variable (hU : U.Lawful)
include hU

/-- A text has one composed form. -/
theorem composed_unique (h : U.Composed l r) (h' : U.Composed l r') : r = r' := by
  obtain ⟨d, hd, hr⟩ := h
  obtain ⟨d', hd', hr'⟩ := h'
  rw [canonical_iff] at hd hd'
  rw [hd] at hr
  rw [hd'] at hr'
  have hjoined : ∀ a c p q, U.Forms a c p → U.Forms a c q → p = q := fun _ _ _ _ => hU.forms_unique
  exact hr.unique hjoined hr'

theorem composed_of_pairs (h : U.Canonical l m) (hr : Composes U.cc U.Pairs [] m r) : U.Composed l r :=
  ⟨m, h, hU.composes_forms hr sound_nil (fun _ _ => .inr (Nat.zero_le _)) h.whole h.2⟩

/-- What is composed is its own composed form. -/
theorem composed_self (h : U.Canonical l m) (hr : Composes U.cc U.Pairs [] m r) : U.Composed r r := by
  have hsettled := hU.settled_composes hr sound_nil (fun _ _ => .inr (Nat.zero_le _)) h.whole h.2
  rw [List.flatMap_nil, List.nil_append, settled_of_ordered h.2] at hsettled
  exact hU.composed_of_pairs (canonical_iff.mpr hsettled.symm) hr

end Lawful

/-! ### Characters that come back as they are -/

/-- No character composes with one of these, and what each is made of comes back to it. -/
def Closed (U : Script α) (Q : α → Prop) : Prop :=
  ∀ c, Q c → U.cc c = 0 ∧ (∀ l p, ¬U.Pairs l c p) ∧
    (U.parts c = [] ∨ ∃ a b, U.Pairs a b c ∧ Q a)

namespace Lawful

variable {Q : α → Prop} (hU : U.Lawful) (hQ : U.Closed Q)
include hU hQ

theorem composes_full (hc : Q c) (h : Composes U.cc U.Pairs (out ++ [c]) rest r) :
    Composes U.cc U.Pairs out (U.full c ++ rest) r := by
  induction c using U.acyclic.induction generalizing rest with
  | h c ih =>
    obtain ⟨hstarter, hnone, hwhole | ⟨a, b, hp, ha⟩⟩ := hQ c hc
    · rw [full_of_whole hwhole]
      exact .next (.keep fun x l z p _ hp => hnone l p hp) h
    · rw [hU.full_of_pairs hp, List.append_assoc]
      refine ih a (by rw [hp.2]; exact List.mem_cons_self) ha ?_
      have hsees : Sees U.cc b (out ++ [a]) out a [] := ⟨rfl, (hQ a ha).1, fun ⟨_, hd, _⟩ => nomatch hd⟩
      exact .next (.join hsees hp) h

theorem opens_full (hc : Q c) (y : List α) : Opens U.cc (U.full c ++ y) := by
  induction c using U.acyclic.induction generalizing y with
  | h c ih =>
    obtain ⟨hstarter, -, hwhole | ⟨a, b, hp, ha⟩⟩ := hQ c hc
    · rw [full_of_whole hwhole]
      intro d hd
      cases hd
      exact hstarter
    · rw [hU.full_of_pairs hp, List.append_assoc]
      exact ih a (by rw [hp.2]; exact List.mem_cons_self) ha _

/-- A text of such characters is its own composed form. -/
theorem composes_text (hl : ∀ a ∈ l, Q a) (out : List α) :
    Composes U.cc U.Pairs out (l.flatMap U.full) (out ++ l) := by
  induction l generalizing out with
  | nil =>
    rw [List.append_nil]
    exact .done out
  | cons a l ih =>
    have hrest := ih (fun b hb => hl b (List.mem_cons_of_mem a hb)) (out ++ [a])
    rw [List.append_assoc] at hrest
    exact hU.composes_full hQ (hl a List.mem_cons_self) hrest

theorem ordered_text (hl : ∀ a ∈ l, Q a) : Ordered U.cc (l.flatMap U.full) := by
  induction l with
  | nil => exact List.isChain_nil
  | cons a l ih =>
    refine List.isChain_append.mpr ⟨hU.ordered a, ih fun b hb => hl b (List.mem_cons_of_mem a hb), ?_⟩
    intro e _ d hd hwrong
    cases l with
    | nil => cases hd
    | cons b l =>
      have hzero : U.cc d = 0 := hU.opens_full hQ (hl b (by simp)) _ d hd
      exact absurd hwrong.2 (by omega)

theorem composed_text (hl : ∀ a ∈ l, Q a) : U.Composed l l := by
  have hcanonical : U.Canonical l (l.flatMap U.full) := ⟨.refl, hU.ordered_text hQ hl⟩
  exact hU.composed_of_pairs hcanonical (hU.composes_text hQ hl [])

end Lawful

end Script

end Combining
