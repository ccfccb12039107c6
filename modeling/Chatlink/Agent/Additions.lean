import Chatlink.Agent.Closing
import Chatlink.Agent.LineFrame
import Chatlink.Agent.MediaOrders
import Chatlink.Agent.OpenItems

/-!
# What becomes of the added lines

The reducer keeps an added code in a line, in a question about its quantity or in a proposal. The
products read from a photo wait for the end of the turn, where they are proposed only if no other
proposal is alive.
-/
namespace Chatlink.Agent

open Lists

variable {fm : Bool} {e : Estado} {g : Option ℤ} {ops : List Op} {c : Texto}

/-- The code is in the cart, in a quantity conflict or among the lines of a live proposal. -/
def Guardado (e : Estado) (c : Texto) : Prop :=
  c ∈ e.codes ∨ c ∈ e.conflictos.map Conflicto.code ∨ ∃ v ∈ e.siNos, c ∈ v.codes

/-- Every line the operations add is kept. -/
def AddsKept (fm : Bool) (e : Estado) (g : Option ℤ) (ops : List Op) : Prop :=
  ∀ op ∈ ops, ∀ l, op.leida = some l → Guardado (aplicar e ops fm g).estado l.code

/-! ## Pass 2 -/

theorem mem_conflictos_iff : c ∈ e.conflictos.map Conflicto.code ↔
    ∃ k, Item.conflicto k ∈ e.openItems ∧ k.code = c := by
  rw [conflictos_codes]
  exact mem_disputas

theorem conflicto_mem_quitaConflictos {k : Conflicto} {code : Texto} {items : List Item} :
    Item.conflicto k ∈ quitaConflictos code items ↔ Item.conflicto k ∈ items ∧ k.code ≠ code := by
  simp [quitaConflictos, Item.conflictoDe]

/-- A conflict that replaces those of its code. -/
theorem exists_conflicto_reabre (nuevo : Conflicto) (items : List Item) :
    (∃ k, Item.conflicto k ∈ quitaConflictos nuevo.code items ++ [.conflicto nuevo] ∧ k.code = c) ↔
      c = nuevo.code ∨ ∃ k, Item.conflicto k ∈ items ∧ k.code = c := by
  constructor
  · rintro ⟨k, hk, rfl⟩
    rcases List.mem_append.mp hk with hk | hk
    · exact .inr ⟨k, (conflicto_mem_quitaConflictos.mp hk).1, rfl⟩
    · obtain rfl := Item.conflicto.inj (List.mem_singleton.mp hk)
      exact .inl rfl
  · intro h
    by_cases hc : c = nuevo.code
    · exact ⟨nuevo, List.mem_append_right _ List.mem_cons_self, hc.symm⟩
    · obtain ⟨k, hk, rfl⟩ := h.resolve_left hc
      exact ⟨k, List.mem_append_left _ (conflicto_mem_quitaConflictos.mpr ⟨hk, hc⟩), rfl⟩

/-- Rule 3 on one code: a suspended line becomes a question, and the others are left. -/
theorem regla3Una_guarda (t : Trabajo) (r : Texto × List (Option ℤ)) :
    (c ∈ (regla3Una t r).e.codes ∨ ∃ k, Item.conflicto k ∈ (regla3Una t r).e.openItems ∧ k.code = c) ↔
      (c ∈ t.e.codes ∨ ∃ k, Item.conflicto k ∈ t.e.openItems ∧ k.code = c) ∨
        (1 < (distintas r.2).length ∧ c = r.1) := by
  by_cases hd : 1 < (distintas r.2).length
  · have hcodes : c ∈ (regla3Una t r).e.codes ↔ c ∈ t.e.codes ∧ c ≠ r.1 := by
      rw [Estado.codes, regla3Una_cart, if_pos hd]
      constructor
      · intro h
        obtain ⟨l, hl, rfl⟩ := List.mem_map.mp h
        obtain ⟨hmem, hne⟩ := List.mem_filter.mp hl
        exact ⟨List.mem_map_of_mem hmem, of_decide_eq_true hne⟩
      · rintro ⟨h, hne⟩
        obtain ⟨l, hl, rfl⟩ := List.mem_map.mp h
        exact List.mem_map_of_mem (List.mem_filter.mpr ⟨hl, decide_eq_true hne⟩)
    have hconf : (∃ k, Item.conflicto k ∈ (regla3Una t r).e.openItems ∧ k.code = c) ↔
        c = r.1 ∨ ∃ k, Item.conflicto k ∈ t.e.openItems ∧ k.code = c := by
      unfold regla3Una
      dsimp only
      rw [if_pos hd]
      exact exists_conflicto_reabre ⟨r.1, _, _⟩ t.e.openItems
    rw [hcodes, hconf]
    by_cases hc : c = r.1
    · simp [hc, hd]
    · simp [hc]
  · have hsame : regla3Una t r = t := if_neg hd
    rw [hsame, iff_self_or]
    exact fun h => absurd h.1 hd

theorem regla3_guarda (t : Trabajo) :
    (c ∈ (regla3 t).e.codes ∨ ∃ k, Item.conflicto k ∈ (regla3 t).e.openItems ∧ k.code = c) ↔
      (c ∈ t.e.codes ∨ ∃ k, Item.conflicto k ∈ t.e.openItems ∧ k.code = c) ∨
        ∃ r ∈ t.seenAdds, 1 < (distintas r.2).length ∧ c = r.1 := by
  rw [regla3]
  generalize t.seenAdds = rs
  induction rs generalizing t with
  | nil => simp
  | cons r rs ih =>
    rw [List.foldl_cons, ih, regla3Una_guarda, or_assoc]
    simp only [List.exists_mem_cons_iff]

theorem pase2_conflictos (t : Trabajo) : (∃ k, Item.conflicto k ∈ (pase2 t).e.openItems ∧ k.code = c) ↔
    ∃ k, Item.conflicto k ∈ (regla3 (reglaMedia t)).e.openItems ∧ k.code = c := by
  constructor
  · rintro ⟨k, hk, rfl⟩
    obtain ⟨i, hi, hs⟩ := (pase2_prosigue t).de _ hk
    cases hs
    exact ⟨k, hi, rfl⟩
  · rintro ⟨k, hk, rfl⟩
    obtain ⟨i, hi, hs⟩ := (pase2_prosigue t).a _ hk
    cases hs
    exact ⟨k, hi, rfl⟩

theorem reglaMedia_conflictos (t : Trabajo) :
    (∃ k, Item.conflicto k ∈ (reglaMedia t).e.openItems ∧ k.code = c) ↔
      ∃ k, Item.conflicto k ∈ t.e.openItems ∧ k.code = c := by
  rcases reglaMedia_openItems t with h | ⟨v, h⟩
  · rw [h]
  · simp [h]

/-- Where a code is after pass 2: where it was before, in the conflict that suspends it, or in the
proposal of the photo. -/
theorem guardado_aplicar : Guardado (aplicar e ops fm g).estado c ↔
    c ∈ (tras fm e g ops).e.codes ∨ c ∈ (tras fm e g ops).e.conflictos.map Conflicto.code ∨
      Disputada fm e g ops c ∨ ∃ v ∈ (reglaMedia (tras fm e g ops)).e.siNos, c ∈ v.codes := by
  have hcodes : (pase2 (tras fm e g ops)).e.codes = (regla3 (reglaMedia (tras fm e g ops))).e.codes :=
    regla11_codes _
  have hmedia : (reglaMedia (tras fm e g ops)).e.codes = (tras fm e g ops).e.codes :=
    congrArg (List.map Linea.code) (reglaMedia_cart _)
  rw [Guardado, aplicar_estado, pase2_siNos, ← or_assoc, mem_conflictos_iff, pase2_conflictos, hcodes,
    regla3_guarda, (reglaMedia_frame _).1, suspendida_iff, reglaMedia_conflictos, hmedia,
    mem_conflictos_iff]
  simp only [or_assoc]

/-! ## The two kinds of turn -/

/-- The photo makes its proposal, or the products it shows are nowhere but where they were. -/
theorem addsKept_media_iff : AddsKept true e g ops ↔ ((tras true e g ops).e.siNos ≠ [] →
    ∀ op ∈ ops, ∀ l, op.leida = some l →
      Guardado (tras true e g ops).e l.code ∨ Disputada true e g ops l.code) := by
  unfold AddsKept
  simp only [guardado_aplicar, reglaMedia_siNos, tras_lineasMedia]
  by_cases hs : (tras true e g ops).e.siNos = []
  · refine iff_of_true ?_ fun h => absurd hs h
    intro op hop l hl
    have hmem : l ∈ ops.filterMap Op.leida := List.mem_filterMap.mpr ⟨op, hop, hl⟩
    rw [if_pos hs, if_neg (List.ne_nil_of_mem hmem)]
    exact .inr (.inr (.inr ⟨_, List.mem_singleton_self _, List.mem_map_of_mem hmem⟩))
  · rw [if_neg hs, forall_prop_of_true hs]
    refine forall₂_congr fun op _ => forall₂_congr fun l _ => ?_
    rw [Guardado, or_assoc, or_assoc]
    exact or_congr_right (or_congr_right or_comm)

/-- The codes of the cart stay through operations that remove none. -/
theorem codes_tras_append {xs ys : List Op} (hys : ∀ op ∈ ys, ∀ s : Estado, op.borradas s = [])
    (h : c ∈ (tras fm e g xs).e.codes) : c ∈ (tras fm e g (xs ++ ys)).e.codes := by
  induction ys using List.reverseRecOn with
  | nil => rwa [List.append_nil]
  | append_singleton ys op ih =>
    rw [← List.append_assoc, tras_concat]
    refine paso_codes_keep fm _ op (ih fun o ho => hys o (List.mem_append_left _ ho)) ?_
    rw [hys op (List.mem_append_right _ (List.mem_singleton_self op))]
    exact List.not_mem_nil

/-- Without a photo every added line is in the cart, or in the question that suspends it, when the
lines are added after the operations that remove others. -/
theorem addsKept_of_append {xs ys : List Op} (hxs : ∀ op ∈ xs, op.leida = none)
    (hys : ∀ op ∈ ys, ∀ s : Estado, op.borradas s = []) : AddsKept false e g (xs ++ ys) := by
  intro op hop l hl
  rw [guardado_aplicar]
  rcases List.mem_append.mp hop with h | h
  · rw [hxs op h] at hl
    cases hl
  · obtain ⟨ys₁, ys₂, rfl⟩ := List.append_of_mem h
    cases op with
    | add code name brand qty fuente =>
      obtain rfl : _ = l := Option.some.inj hl
      have hadd : code ∈ (tras false e g (xs ++ ys₁ ++ [.add code name brand qty fuente])).e.codes := by
        rw [tras_concat]
        exact (tras false e g (xs ++ ys₁)).add_code_mem code name brand qty fuente []
      have hend := codes_tras_append (fun o (ho : o ∈ ys₂) s => hys o (by simp [ho]) s) hadd
      simp only [List.append_assoc, List.singleton_append] at hend
      exact .inl hend
    | _ => cases hl

end Chatlink.Agent
