import Chatlink.Conversation.Ingest

/-!
# The answering window

A conversation is found due once per tick, by a query that looks only at recent rows;
the turn reads the whole history later. The two agree on the age of the messages as
long as, when the turn reads, no unanswered message is older than the query looks and
what was stored since the query has waited its delay.
-/
namespace Chatlink.Conversation

open Transition

variable {cfg : Config} {s s' : Sistema} {k : Clave}

/-- A message has waited the delay and is not too old at time `t`. -/
def InWindow (cfg : Config) (t : ℕ) (m : Fila) : Prop :=
  m.timestamp + cfg.delay ≤ t ∧ t ≤ m.timestamp + cfg.maxPendingAge

/-- Every message a turn answered was in the window when the turn read it. -/
def AnsweredInWindow (cfg : Config) (s : Sistema) : Prop :=
  ∀ r ∈ s.registro, r.fin = .contestado → ∀ m ∈ r.pending, InWindow cfg r.leidoEn m

/-- When a turn reads, no unanswered client message of its conversation is older than
`PENDING_MAX_AGE_HOURS`, and none stored since the tick's query is younger than the delay. -/
def aTiempo (cfg : Config) (s : Sistema) : Accion → Bool
  | .lee _ =>
    match s.bucle with
    | .turnos q (k :: _) =>
      (((s.conversacion k).filter Fila.clientMsg).all fun m =>
        m.id ≤ (s.sesiones k).lastAnsweredId || m.id ≤ s.newer k ||
          s.reloj ≤ m.timestamp + cfg.maxPendingAge) &&
      (s.filas.drop q.vistas).all fun m =>
        m.clave ≠ k || !m.clientMsg || m.timestamp + cfg.delay ≤ s.reloj
    | _ => true
  | _ => true

/-- The query of the running tick and the turns it left to run. -/
def Bucle.consulta : Bucle → Option (Consulta × List Clave)
  | turnos q ks => some (q, ks)
  | leido q _ ks => some (q, ks)
  | agente q _ ks => some (q, ks)
  | comprobado q _ _ _ ks => some (q, ks)
  | _ => none

/-- What the query promises of the conversations it found due. -/
structure Vigente (cfg : Config) (s : Sistema) (q : Consulta) (ks : List Clave) : Prop where
  now : q.now ≤ s.reloj
  vistas : q.vistas ≤ s.filas.length
  waited : ∀ k ∈ ks, ∀ m ∈ s.filas.take q.vistas, m.clientMsg → m.clave = k →
    m.timestamp + cfg.delay ≤ q.now

structure Puntual (cfg : Config) (s : Sistema) : Prop where
  consulta : ∀ q ks, s.bucle.consulta = some (q, ks) → Vigente cfg s q ks
  turno : ∀ q l ks, s.bucle.enCurso = some (q, l, ks) → ∀ m ∈ l.pending, InWindow cfg l.leidoEn m
  registro : ∀ r ∈ s.registro, ∀ m ∈ r.pending, InWindow cfg r.leidoEn m

theorem puntual_inicial : Puntual cfg inicial := by
  refine ⟨?_, ?_, ?_⟩ <;> simp [inicial, Bucle.consulta, Bucle.enCurso]

/-! ## The query -/

theorem due_spec (h : s.due cfg k) :
    (∃ m ∈ s.filas, m.clientMsg ∧ m.clave = k ∧ s.reloj ≤ m.timestamp + cfg.maxPendingAge ∧
      m.timestamp + cfg.delay ≤ s.reloj) ∧
    ∀ m ∈ s.filas, m.clientMsg → m.clave = k → s.reloj ≤ m.timestamp + cfg.maxPendingAge →
      m.timestamp + cfg.delay ≤ s.reloj := by
  simp only [Sistema.due, Bool.and_eq_true, decide_eq_true_eq] at h
  obtain ⟨⟨hne, -⟩, hmax⟩ := h
  have hin (m : Fila) (hm : m ∈ (s.recientes cfg k).filter Fila.clientMsg) :
      m.timestamp + cfg.delay ≤ s.reloj := by
    have hle : m.timestamp ≤ _ := le_maximo (List.mem_map_of_mem (f := Fila.timestamp) hm)
    omega
  refine ⟨?_, fun m hm hc hk hr => hin m ?_⟩
  · have hne' : (s.recientes cfg k).filter Fila.clientMsg ≠ [] := by
      intro hnil
      simp [hnil] at hne
    obtain ⟨m, hm⟩ := List.exists_mem_of_ne_nil _ hne'
    obtain ⟨hrec, hc⟩ := List.mem_filter.mp hm
    obtain ⟨hconv, hr⟩ := List.mem_filter.mp hrec
    obtain ⟨hf, hk⟩ := mem_conversacion.mp hconv
    exact ⟨m, hf, hc, hk, by simpa using hr, hin m hm⟩
  · exact List.mem_filter.mpr ⟨List.mem_filter.mpr ⟨mem_conversacion.mpr ⟨hm, hk⟩, by simpa using hr⟩, hc⟩

/-- Every client message of a due conversation has waited, the ones the query does not
look at included: some message is both recent and past the delay. -/
theorem due_waited (h : s.due cfg k) {m : Fila} (hm : m ∈ s.filas) (hc : m.clientMsg)
    (hk : m.clave = k) : m.timestamp + cfg.delay ≤ s.reloj := by
  obtain ⟨⟨n, -, -, -, hn1, hn2⟩, hall⟩ := due_spec h
  by_cases hr : s.reloj ≤ m.timestamp + cfg.maxPendingAge
  · exact hall m hm hc hk hr
  · omega

theorem vigente_tick {ks : List Clave} (h : ks.Perm (s.dueConversations cfg)) :
    Vigente cfg s ⟨s.reloj, s.filas.length⟩ ks := by
  refine ⟨le_rfl, le_rfl, fun k hk m hm hc hmk => ?_⟩
  have hdue : s.due cfg k := (List.mem_filter.mp (h.mem_iff.mp hk)).2
  exact due_waited hdue (List.mem_of_mem_take hm) hc hmk

/-- The promise stands while the clock runs and rows are added. -/
theorem Vigente.mono {q : Consulta} {ks ks' : List Clave} (h : Vigente cfg s q ks)
    (hr : s.reloj ≤ s'.reloj) (hf : s.filas <+: s'.filas) (hk : ∀ k ∈ ks', k ∈ ks) :
    Vigente cfg s' q ks' := by
  refine ⟨h.now.trans hr, h.vistas.trans hf.length_le, fun k hkm m hm => ?_⟩
  obtain ⟨rest, hrest⟩ := hf
  rw [← hrest, List.take_append_of_le_length h.vistas] at hm
  exact h.waited k (hk k hkm) m hm

/-! ## The turn -/

/-- A pending message is newer than the salesman's last one in the whole table. -/
theorem newer_lt_of_pending {enabled : Bool} (hn : Numerado s) {m : Fila}
    (hm : m ∈ (s.lectura cfg k enabled).pending) : s.newer k < m.id := by
  obtain ⟨hh, hc, -, hlast⟩ := mem_pending.mp hm
  obtain ⟨hf, hk⟩ := mem_conversacion.mp (mem_of_mem_loadHistory hh)
  by_contra hle
  have hne : ((s.conversacion k).filter Fila.salesmanMsg).map Fila.id ≠ [] := by
    intro hnil
    rw [Sistema.newer, hnil] at hle
    have hzero : m.id = 0 := Nat.le_zero.mp (Nat.le_of_not_lt hle)
    omega
  obtain ⟨v, hv, hvid⟩ := List.mem_map.mp (maximo_mem hne)
  obtain ⟨hvc, hvs⟩ := List.mem_filter.mp hv
  obtain ⟨hvf, hvk⟩ := mem_conversacion.mp hvc
  have hvid' : v.id = s.newer k := hvid
  rcases Nat.lt_or_ge m.id v.id with hlt | hge
  · have hlv : v.id ≤ (s.lectura cfg k enabled).lastSalesmanId :=
      le_lastSalesmanId (mem_loadHistory_of_lt hh hvc hlt) hvs
    omega
  · exact ids_ne hn hf hvf hc hvs (hk.trans hvk.symm) (by omega)

theorem inWindow_lee {q : Consulta} {ks : List Clave} {enabled : Bool} (hn : Numerado s)
    (h : Puntual cfg s) (hc : aTiempo cfg s (.lee enabled)) (hb : s.bucle = .turnos q (k :: ks))
    {m : Fila} (hm : m ∈ (s.lectura cfg k enabled).pending) : InWindow cfg s.reloj m := by
  obtain ⟨hh, hmc, hcur, -⟩ := mem_pending.mp hm
  obtain ⟨hf, hk⟩ := mem_conversacion.mp (mem_of_mem_loadHistory hh)
  have hnew := newer_lt_of_pending hn hm
  have hq := h.consulta q (k :: ks) (by rw [hb]; rfl)
  simp only [aTiempo, hb, Bool.and_eq_true, List.all_eq_true] at hc
  obtain ⟨hold, hlate⟩ := hc
  refine ⟨?_, ?_⟩
  · rw [← List.take_append_drop q.vistas s.filas] at hf
    rcases List.mem_append.mp hf with hf | hf
    · exact (hq.waited k List.mem_cons_self m hf hmc hk).trans hq.now
    · simpa [hk, hmc] using hlate m hf
  · have hm' := hold m (List.mem_filter.mpr ⟨mem_of_mem_loadHistory hh, hmc⟩)
    simpa [Nat.not_le.mpr hcur, Nat.not_le.mpr hnew] using hm'

theorem consulta_of_restantes {b : Bucle} {q : Consulta} {ks : List Clave}
    (h : b.restantes = some (q, ks)) : ∃ ks₀, b.consulta = some (q, ks₀) ∧ ∀ k ∈ ks, k ∈ ks₀ := by
  unfold Bucle.restantes at h
  split at h
  · next q' k' ks' =>
    obtain ⟨rfl, rfl⟩ : q' = q ∧ ks' = ks := by simpa using h
    exact ⟨k' :: ks', rfl, fun _ => List.mem_cons_of_mem _⟩
  · exact ⟨ks, h, fun _ hk => hk⟩
  · exact ⟨ks, h, fun _ hk => hk⟩
  · exact ⟨ks, h, fun _ hk => hk⟩
  · cases h

theorem consulta_of_enCurso {b : Bucle} {q : Consulta} {l : Lectura} {ks : List Clave}
    (h : b.enCurso = some (q, l, ks)) : b.consulta = some (q, ks) := by
  cases b <;> simp_all [Bucle.enCurso, Bucle.consulta]

theorem puntual_avance {a : Accion} {b : Bucle} (hn : Numerado s) (h : Puntual cfg s)
    (hc : aTiempo cfg s a) (hb : Avance cfg s a b) : Puntual cfg { s with bucle := b } := by
  have hnew (hq : ∀ q ks, b.consulta = some (q, ks) → Vigente cfg s q ks)
      (hl : ∀ q l ks, b.enCurso = some (q, l, ks) → ∀ m ∈ l.pending, InWindow cfg l.leidoEn m) :
      Puntual cfg { s with bucle := b } :=
    ⟨fun q ks hb' => (hq q ks hb').mono le_rfl (List.prefix_refl _) (fun _ hk => hk), hl, h.registro⟩
  cases hb with
  | @tick ks hb hks =>
    refine hnew (fun q ks' hq => ?_) (by simp [Bucle.enCurso])
    obtain ⟨rfl, rfl⟩ : ⟨s.reloj, s.filas.length⟩ = q ∧ ks = ks' := by simpa [Bucle.consulta] using hq
    exact vigente_tick hks
  | @sigue _ q ks hb =>
    refine hnew (fun q' ks' hq => ?_) (by simp [Bucle.enCurso])
    obtain ⟨rfl, rfl⟩ : q = q' ∧ ks = ks' := by simpa [Bucle.consulta] using hq
    obtain ⟨ks₀, hks₀, hsub⟩ := consulta_of_restantes hb
    exact (h.consulta q ks₀ hks₀).mono le_rfl (List.prefix_refl _) hsub
  | @lee q k ks enabled hb hp =>
    refine hnew (fun q' ks' hq => ?_) fun q' l ks' hl m hm => ?_
    · obtain ⟨rfl, rfl⟩ : q = q' ∧ ks = ks' := by simpa [Bucle.consulta] using hq
      exact (h.consulta q (k :: ks) (by rw [hb]; rfl)).mono le_rfl (List.prefix_refl _)
        fun _ => List.mem_cons_of_mem _
    · obtain ⟨-, rfl, -⟩ : q = q' ∧ s.lectura cfg k enabled = l ∧ ks = ks' := by
        simpa [Bucle.enCurso] using hl
      exact inWindow_lee hn h hc hb hm
  | @criba _ q l ks x hb =>
    refine hnew (fun q' ks' hq => ?_) fun q' l' ks' hl m hm => ?_
    · exact h.consulta q' ks' (by rw [hb]; exact hq)
    · obtain ⟨-, rfl, -⟩ : q = q' ∧ { l with sesion := x } = l' ∧ ks = ks' := by
        simpa [Bucle.enCurso] using hl
      exact h.turno q l ks (by rw [hb]; rfl) m hm
  | @comprueba q l ks reply optOut hb hnw =>
    refine hnew (fun q' ks' hq => ?_) fun q' l' ks' hl => ?_
    · exact h.consulta q' ks' (by rw [hb]; exact hq)
    · exact h.turno q' l' ks' (by rw [hb]; exact hl)
  | carga c => exact hnew (by simp [Bucle.consulta]) (by simp [Bucle.enCurso])
  | entrega hb => exact hnew (by simp [Bucle.consulta]) (by simp [Bucle.enCurso])
  | reposo => exact hnew (by simp [Bucle.consulta]) (by simp [Bucle.enCurso])

/-- The end of a turn logs what it read. -/
theorem puntual_done {q : Consulta} {l : Lectura} {ks : List Clave} (h : Puntual cfg s) (x : Sesion)
    (fin : Fin) (hb : s.bucle.enCurso = some (q, l, ks)) :
    Puntual cfg (s.done q { l with sesion := x } ks fin) := by
  refine ⟨fun q' ks' hq => ?_, fun _ _ _ hl => ?_, fun r hr => ?_⟩
  · obtain ⟨rfl, rfl⟩ : q = q' ∧ ks = ks' := by simpa [Sistema.done, Bucle.consulta] using hq
    exact (h.consulta q ks (consulta_of_enCurso hb)).mono le_rfl (List.prefix_refl _) fun _ hk => hk
  · cases hl
  · rcases List.mem_append.mp hr with hr | hr
    · exact h.registro r hr
    · rw [List.mem_singleton.mp hr]
      exact h.turno q l ks hb

theorem puntual_paso {a : Accion} (hn : Numerado s) (hc : aTiempo cfg s a)
    (hp : paso cfg s a = some s') (h : Puntual cfg s) : Puntual cfg s' := by
  -- ingest only lets time pass and adds rows
  have hkeep {s s' : Sistema} (h : Puntual cfg s) (hr : s.reloj ≤ s'.reloj)
      (hf : s.filas <+: s'.filas) (hb : s'.bucle = s.bucle) (hg : s'.registro = s.registro) :
      Puntual cfg s' := by
    refine ⟨fun q ks hq => ?_, fun q l ks hl => ?_, fun r hrm => ?_⟩
    · exact (h.consulta q ks (hb ▸ hq)).mono hr hf fun _ hk => hk
    · exact h.turno q l ks (hb ▸ hl)
    · exact h.registro r (hg ▸ hrm)
  cases paso_cases hp with
  | reloj d => exact hkeep h (Nat.le_add_right _ _) (List.prefix_refl _) rfl rfl
  | llega k d => exact hkeep h le_rfl (List.prefix_refl _) rfl rfl
  | quita i => exact hkeep h le_rfl (List.prefix_refl _) rfl rfl
  | prepara message ht hf => exact hkeep h le_rfl (List.prefix_refl _) rfl rfl
  | inserta ht hf => exact hkeep h le_rfl (List.prefix_refl _) rfl rfl
  | confirma ht hf => exact hkeep h le_rfl (List.prefix_append _ _) rfl rfl
  | avanza ha => exact puntual_avance hn h hc ha
  | done x fin hb => exact puntual_done h x fin hb
  | responde x hb hr =>
    exact hkeep (puntual_done h x .contestado (by rw [hb]; rfl)) le_rfl (List.prefix_append _ _) rfl rfl
  | anota ok hb =>
    exact ⟨by simp [Bucle.consulta], by simp [Bucle.enCurso], h.registro⟩
  | reinicia => exact ⟨by simp [Bucle.consulta], by simp [Bucle.enCurso], h.registro⟩

/-- As long as every turn finds nothing too old to answer and nothing that came since
the query of its tick, all it answers was in the window when it read. -/
theorem window_answered
    (h : Reachable (paso cfg) (fun s a => aTiempo cfg s a = true) inicial s) :
    AnsweredInWindow cfg s := by
  have hpun : Puntual cfg s := h.invariant_with (fun _ => reachable_numerado) puntual_inicial
    fun _ _ _ hn hc hs hi => puntual_paso hn hc hs hi
  exact fun r hr _ => hpun.registro r hr

/-- A message and the turn that answers it after the delay. -/
def runOnTime : List Accion :=
  [.llega cliente .received, .prepara 0 "ponme 6 del kajal", .inserta 0, .confirma 0, .avanza 900,
    .tick [cliente], .lee true, .criba true, .comprueba "apuntado" false, .escribe]

theorem answeredInWindow_of_runOnTime :
    ∃ s, replay (paso (.porDefecto .latin)) (aTiempo (.porDefecto .latin)) inicial runOnTime = some s ∧
      s.registro.length = 1 ∧ AnsweredInWindow (.porDefecto .latin) s := by
  refine ⟨(replay (paso (.porDefecto .latin)) (aTiempo (.porDefecto .latin)) inicial runOnTime).get
    (by decide), by simp, by decide, ?_⟩
  exact window_answered (reachable_get runOnTime (by decide))

/-- The turn for a message fails while the inference is down; hours later the client
writes again, and the new turn answers the old message too. -/
def runLate : List Accion :=
  [.llega cliente .received, .prepara 0 "ponme 6 del kajal", .inserta 0, .confirma 0, .avanza 900,
    .tick [cliente], .lee true, .criba true, .falla, .carga, .carga, .duerme, .avanza 21000,
    .llega cliente .received, .prepara 0 "hola?", .inserta 0, .confirma 0, .avanza 900,
    .tick [cliente], .lee true, .criba true, .comprueba "apuntado" false, .escribe]

theorem old_message_answered_late :
    ¬ ∀ s, Reachable (paso (.porDefecto .latin)) Libre inicial s →
      AnsweredInWindow (.porDefecto .latin) s := by
  intro h
  have hlate := h _ (reachable_run runLate (by decide))
  revert hlate
  unfold AnsweredInWindow InWindow
  decide

end Chatlink.Conversation
