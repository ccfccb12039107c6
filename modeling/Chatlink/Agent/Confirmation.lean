import Chatlink.Agent.ReducerSteps

/-!
# Explicit confirmation

Closing and repeating an order need a "sí" to a question the client has seen. The
proposals open when the turn begins form a queue that the answers of the turn take
from the front; a proposal opened during the turn stands behind them. A turn keeps
the rule exactly when no `confirmar` is the first answer after an operation that
opened a proposal.
-/
namespace Chatlink.Agent

open Lists

variable {fm : Bool} {e : Estado} {g : Option ℤ}

/-- How many answers a list of operations holds. -/
def respuestas (xs : List Op) : ℕ := xs.countP esRespuesta

theorem respuestas_concat (xs : List Op) (op : Op) :
    respuestas (xs ++ [op]) = respuestas xs + if esRespuesta op then 1 else 0 := by
  cases h : esRespuesta op <;> simp [respuestas, List.countP_append, h]

/-- While proposals of the start are unanswered they are exactly what is left of the
queue; afterwards at most one proposal is live, and it is of this turn. -/
theorem tras_siNos (xs : List Op) :
    (respuestas xs < e.siNos.length →
      (tras fm e g xs).e.siNos = e.siNos.drop (respuestas xs)) ∧
    (e.siNos.length ≤ respuestas xs → (tras fm e g xs).e.siNos.length ≤ 1) := by
  induction xs using List.reverseRecOn with
  | nil =>
    refine ⟨fun _ => rfl, fun h => ?_⟩
    have h0 : e.siNos.length ≤ 0 := h
    change e.siNos.length ≤ 1
    omega
  | append_singleton xs op ih =>
    rw [tras_concat, paso_siNos, respuestas_concat]
    cases hop : esRespuesta op with
    | true =>
      simp only [if_true]
      refine ⟨fun h => ?_, fun h => ?_⟩
      · rw [ih.1 (by omega), List.tail_drop]
      · rw [List.length_tail]
        by_cases hlt : respuestas xs < e.siNos.length
        · rw [ih.1 hlt, List.length_drop]
          omega
        · have := ih.2 (by omega)
          omega
    | false =>
      simp only [Bool.false_eq_true, if_false, Nat.add_zero]
      refine ⟨fun h => ?_, fun h => ?_⟩
      · rw [if_neg, ih.1 h]
        rw [ih.1 h]
        intro hnil
        have := congrArg List.length hnil
        rw [List.length_drop, List.length_nil] at this
        omega
      · split
        · cases apertura (tras fm e g xs).e op <;> simp
        · exact ih.2 h

theorem siNos_nil_answered (xs : List Op) (h : (tras fm e g xs).e.siNos = []) :
    e.siNos.length ≤ respuestas xs := by
  by_contra hlt
  rw [(tras_siNos xs).1 (Nat.lt_of_not_le hlt)] at h
  have := congrArg List.length h
  rw [List.length_drop, List.length_nil] at this
  omega

/-- Without an answer a live proposal stays live. -/
theorem siNos_persist (xs us : List Op) (hus : ∀ o ∈ us, esRespuesta o = false)
    (h : (tras fm e g xs).e.siNos ≠ []) :
    (tras fm e g (xs ++ us)).e.siNos = (tras fm e g xs).e.siNos := by
  induction us using List.reverseRecOn with
  | nil => rw [List.append_nil]
  | append_singleton us o ih =>
    have ih := ih fun o' ho' => hus o' (List.mem_append_left _ ho')
    have ho := hus o (List.mem_append_right _ (List.mem_singleton.mpr rfl))
    rw [← List.append_assoc, tras_concat, paso_siNos, ho]
    simp only [Bool.false_eq_true, if_false]
    rw [ih, if_neg h]

/-- A proposal that is live once those of the start are answered was opened by an
operation of this turn, with no answer in between. -/
theorem opener_of_live (xs : List Op) (hl : (tras fm e g xs).e.siNos ≠ [])
    (hn : e.siNos.length ≤ respuestas xs) :
    ∃ ys op us, xs = ys ++ op :: us ∧ (tras fm e g ys).e.siNos = [] ∧
      (apertura (tras fm e g ys).e op).isSome ∧ ∀ o ∈ us, esRespuesta o = false := by
  induction xs using List.reverseRecOn with
  | nil =>
    have h0 : e.siNos.length ≤ 0 := hn
    exact absurd (List.length_eq_zero_iff.mp (Nat.le_zero.mp h0)) hl
  | append_singleton xs o ih =>
    rw [tras_concat, paso_siNos] at hl
    rw [respuestas_concat] at hn
    cases ho : esRespuesta o with
    | true =>
      -- the answer took the only live proposal
      simp only [ho, if_true] at hl hn
      have hlen : (tras fm e g xs).e.siNos.length ≤ 1 := by
        by_cases hlt : respuestas xs < e.siNos.length
        · rw [(tras_siNos xs).1 hlt, List.length_drop]
          omega
        · exact (tras_siNos xs).2 (by omega)
      have : (tras fm e g xs).e.siNos.tail.length = 0 := by
        rw [List.length_tail]
        omega
      exact absurd (List.length_eq_zero_iff.mp this) hl
    | false =>
      simp only [ho, Bool.false_eq_true, if_false, Nat.add_zero] at hl hn
      by_cases hs : (tras fm e g xs).e.siNos = []
      · rw [if_pos hs] at hl
        refine ⟨xs, o, [], rfl, hs, ?_, by simp⟩
        cases ha : apertura (tras fm e g xs).e o with
        | none => simp [ha] at hl
        | some p => rfl
      · obtain ⟨ys, op, us, rfl, h1, h2, h3⟩ := ih hs hn
        refine ⟨ys, op, us ++ [o], by simp, h1, h2, ?_⟩
        intro o' ho'
        rcases List.mem_append.mp ho' with h | h
        · exact h3 o' h
        · rw [List.mem_singleton.mp h]
          exact ho

/-- What the rule of explicit confirmation asks of one turn: a `confirmar` executes a
proposal that stood in the queue when the turn began; so the order closes only on an
old close proposal, and a code no operation asked for enters the cart only from the
lines of an old media or repeat proposal. -/
structure ExplicitConfirmation (fm : Bool) (e : Estado) (g : Option ℤ) (ops : List Op) : Prop where
  executed : ∀ xs ys v, ops = xs ++ .confirmar :: ys →
    (tras fm e g xs).e.siNoVivo = some v → v ∈ e.siNos.drop (respuestas xs)
  closed : e.orderStatus ≠ .closed → (aplicar e ops fm g).estado.orderStatus = .closed →
    ∃ p ∈ e.siNos, p.tipo = .cierre
  lines : ∀ c ∈ (aplicar e ops fm g).estado.codes,
    c ∈ e.codes ∨ (∃ op ∈ ops, op.codigo? = some c) ∨
      ∃ p ∈ e.siNos, p.tipo.deLineas ∧ c ∈ p.codes

/-- No operation that opens a proposal is answered by a `confirmar` of the same list:
the first answer after it, if any, is a `negar`. -/
def NoSelfConfirmation (fm : Bool) (e : Estado) (g : Option ℤ) (ops : List Op) : Prop :=
  ∀ xs op ys, ops = xs ++ op :: ys → (tras fm e g xs).e.siNos = [] →
    (apertura (tras fm e g xs).e op).isSome → ys.find? esRespuesta ≠ some .confirmar

theorem executed_of_noSelfConfirmation {ops : List Op} (h : NoSelfConfirmation fm e g ops)
    (xs ys : List Op) (v : Propuesta) (hops : ops = xs ++ .confirmar :: ys)
    (hv : (tras fm e g xs).e.siNoVivo = some v) : v ∈ e.siNos.drop (respuestas xs) := by
  obtain ⟨vs, hvs⟩ := siNoVivo_eq_some.mp hv
  by_cases hlt : respuestas xs < e.siNos.length
  · rw [← (tras_siNos xs).1 hlt, hvs]
    exact List.mem_cons_self
  · have hlive : (tras fm e g xs).e.siNos ≠ [] := by simp [hvs]
    obtain ⟨as, op, us, rfl, h1, h2, h3⟩ := opener_of_live xs hlive (Nat.le_of_not_lt hlt)
    refine absurd ?_ (h as op (us ++ .confirmar :: ys) (by simp [hops]) h1 h2)
    rw [List.find?_append, List.find?_eq_none.mpr (by simpa using h3)]
    rfl

theorem noSelfConfirmation_of_executed {ops : List Op}
    (h : ∀ xs ys v, ops = xs ++ .confirmar :: ys →
      (tras fm e g xs).e.siNoVivo = some v → v ∈ e.siNos.drop (respuestas xs)) :
    NoSelfConfirmation fm e g ops := by
  intro xs op ys hops hnil hopen hfind
  obtain ⟨-, us, vs, rfl, hus⟩ := List.find?_eq_some_iff_append.mp hfind
  have hus' : ∀ o ∈ us, esRespuesta o = false := by
    intro o ho
    simpa using hus o ho
  have hop : esRespuesta op = false := by
    cases op <;> first | rfl | simp [apertura] at hopen
  obtain ⟨p, hp⟩ := Option.isSome_iff_exists.mp hopen
  have hlive : (tras fm e g (xs ++ [op])).e.siNos = [p] := by
    rw [tras_concat, paso_siNos, hop]
    simp [hnil, hp]
  have hsame := siNos_persist (xs ++ [op]) us hus' (by rw [hlive]; simp)
  have hmem := h (xs ++ [op] ++ us) vs p (by rw [hops]; simp)
    (siNoVivo_eq_some.mpr ⟨[], by rw [hsame, hlive]⟩)
  -- the proposals of the start were all answered before `op`, so none is left to execute
  have hcount : respuestas (xs ++ [op] ++ us) = respuestas xs := by
    have h0 : us.countP esRespuesta = 0 := List.countP_eq_zero.mpr (by simpa using hus')
    simp [respuestas, hop, h0]
  rw [hcount, List.drop_eq_nil_of_le (siNos_nil_answered xs hnil)] at hmem
  exact absurd hmem List.not_mem_nil

/-! ## The turn -/

/-- A turn closes the order only by executing a close proposal. -/
theorem closed_by_executed (ops : List Op) (h0 : e.orderStatus ≠ .closed)
    (h : (tras fm e g ops).e.orderStatus = .closed) :
    ∃ xs ys v, ops = xs ++ .confirmar :: ys ∧ (tras fm e g xs).e.siNoVivo = some v ∧
      v.tipo = .cierre := by
  induction ops using List.reverseRecOn with
  | nil => exact absurd h h0
  | append_singleton ops op ih =>
    rw [tras_concat] at h
    rcases paso_closed fm _ op h with h | ⟨rfl, v, hv, ht⟩
    · obtain ⟨xs, ys, v, rfl, hv, ht⟩ := ih h
      exact ⟨xs, ys ++ [op], v, by simp, hv, ht⟩
    · exact ⟨ops, [], v, rfl, hv, ht⟩

/-- Where the codes of the cart come from over a whole list of operations. -/
theorem tras_codes (ops : List Op) {c : Texto} (h : c ∈ (tras fm e g ops).e.codes) :
    c ∈ e.codes ∨ (∃ op ∈ ops, op.codigo? = some c) ∨
      ∃ xs ys v, ops = xs ++ .confirmar :: ys ∧ (tras fm e g xs).e.siNoVivo = some v ∧
        v.tipo.deLineas ∧ c ∈ v.codes := by
  induction ops using List.reverseRecOn with
  | nil => exact Or.inl h
  | append_singleton ops op ih =>
    rw [tras_concat] at h
    rcases paso_codes fm _ op h with h | h | ⟨rfl, v, hv, ht, hc⟩
    · rcases ih h with h | ⟨o, ho, hc⟩ | ⟨xs, ys, v, rfl, hv⟩
      · exact Or.inl h
      · exact Or.inr (Or.inl ⟨o, List.mem_append_left _ ho, hc⟩)
      · exact Or.inr (Or.inr ⟨xs, ys ++ [op], v, by simp, hv⟩)
    · exact Or.inr (Or.inl ⟨op, by simp, h⟩)
    · exact Or.inr (Or.inr ⟨ops, [], v, rfl, hv, ht, hc⟩)

/-- A turn confirms only what the client has seen exactly when none of its `confirmar`
is the first answer to a proposal opened by an operation of the same list. -/
theorem explicitConfirmation_iff (ops : List Op) :
    ExplicitConfirmation fm e g ops ↔ NoSelfConfirmation fm e g ops := by
  constructor
  · exact fun h => noSelfConfirmation_of_executed h.executed
  · intro h
    refine ⟨executed_of_noSelfConfirmation h, fun h0 hc => ?_, fun c hc => ?_⟩
    · rw [aplicar_estado, pase2_orderStatus] at hc
      obtain ⟨xs, ys, v, hops, hv, ht⟩ := closed_by_executed ops h0 hc
      have hmem := executed_of_noSelfConfirmation h xs ys v hops hv
      exact ⟨v, List.mem_of_mem_drop hmem, ht⟩
    · rw [aplicar_estado] at hc
      rcases tras_codes ops (pase2_codes _ hc) with h' | h' | ⟨xs, ys, v, hops, hv, ht, hcv⟩
      · exact Or.inl h'
      · exact Or.inr (Or.inl h')
      · have hmem := executed_of_noSelfConfirmation h xs ys v hops hv
        exact Or.inr (Or.inr ⟨v, List.mem_of_mem_drop hmem, ht, hcv⟩)

/-- A cart of one line, nothing asked: "eso es todo, sí" closes the order at once. -/
theorem close_and_confirm_in_one_turn :
    ¬ ExplicitConfirmation false
      { orderStatus := .building, cart := [⟨"KJ401", 6, "KAJAL NEGRO INTENSO", "pedidos", []⟩] }
      none [.cerrar, .confirmar] := by
  intro h
  have hclosed := h.closed (by decide) (by decide)
  revert hclosed
  decide

end Chatlink.Agent
