import Chatlink.Agent.Budget
import Chatlink.Agent.Edits

/-!
# Review only after asking

A turn without progress takes an attempt from every product that was open before it, and a product
without attempts left goes to the salesman. The budget that decides which products are really asked
about lives in `render`, and the count of the attempts does not know it: a product that waits its
turn loses its attempts all the same.
-/
namespace Chatlink.Agent

open Lists Transition

variable {U : Unicode}

/-! ## Attempts -/

/-- The locals that rule 7 finds. -/
def Turno.antesDe7 (t : Turno) : Trabajo := regla11 (regla3 (reglaMedia (t.tras t.ops)))

/-- Something of the order was settled in the turn. -/
def Turno.progresa (t : Turno) : Bool := t.antesDe7.hechos.any Hecho.progreso

/-- The turn takes an attempt from the open product. -/
def Turno.Gasta (t : Turno) (p : Producto) : Prop :=
  p ∈ t.antesDe7.e.productosAbiertos ∧ p.intentos.getD 0 < intentosTras t.progresa p

/-- The turn turns the product into a review line because its attempts are exhausted. -/
def Turno.Agota (t : Turno) (p : Producto) : Prop :=
  p ∈ t.antesDe7.e.productosAbiertos ∧ maxIntentosProducto ≤ intentosTras t.progresa p

theorem Turno.Gasta.estancado {t : Turno} {p : Producto} (h : t.Gasta p) :
    t.progresa = false ∧ p.nuevo = false := by
  obtain ⟨-, hlt⟩ := h
  unfold intentosTras at hlt
  cases hp : t.progresa with
  | true => simp [hp] at hlt
  | false =>
    cases hn : p.nuevo with
    | true => simp [hp, hn] at hlt
    | false => exact ⟨rfl, rfl⟩

/-! ## A conversation and what its replies asked -/

/-- The session, the products that the last reply asked about, and those of all replies so far. -/
structure Charla where
  sesion : Sesion := {}
  ultima : List Texto := []
  preguntados : List Texto := []

/-- One turn and its reply. A turn without facts renders nothing, and the result of a turn during
which the salesman wrote is dropped. -/
def pasoCharla (U : Unicode) (ch : Charla) (y : Entrada × Carta) : Option Charla :=
  (pasoSesion U ch.sesion y.1).bind fun s =>
    if y.1.adelantado then some { ch with sesion := s }
    else match turnoDe U y.1.entorno ch.sesion.archiva.paraElAgente y.1.mensaje y.1.extraccion with
      | .ok (.turno t) =>
        if (t.hechos y.1.intro y.1.resume).isEmpty then some { ch with sesion := s }
        else (bloquesDe U (t.hechos y.1.intro y.1.resume) t.resultado.estado y.2).map fun bs =>
          ⟨s, preguntados bs, ch.preguntados ++ preguntados bs⟩
      | _ => some { ch with sesion := s }

/-- What a turn with the reply `bs` may do with the attempts: a product goes to review only after a
reply asked about it, and an attempt is taken only from a product that is held back neither by the
reply before nor, while it stays open, by the reply of the turn. -/
structure PreguntadoAntes (ch : Charla) (t : Turno) (bs : List Bloque) : Prop where
  revision : ∀ p, t.Agota p → p.texto ∈ ch.preguntados
  espera : ∀ p, t.Gasta p → p.texto ∈ ch.ultima
  propia : ∀ p, t.Gasta p → ¬ t.Agota p → p.texto ∈ preguntados bs

/-- The turn makes progress, or no product of an earlier turn waits: the last reply asked about each
that is still open, and those with attempts left are among the first of the facts `hs`. -/
def NadieEspera (ch : Charla) (t : Turno) (hs : List Hecho) : Prop :=
  t.progresa ∨ ∀ p ∈ t.antesDe7.e.productosAbiertos, p.nuevo = false →
    p.texto ∈ ch.ultima ∧ (p.intentos.getD 0 + 1 < maxIntentosProducto →
      p.texto ∈ (textosDeProducto hs).take questionBudget)

instance (ch : Charla) (t : Turno) (hs : List Hecho) : Decidable (NadieEspera ch t hs) :=
  inferInstanceAs (Decidable (_ ∨ _))

/-! ## The products that a turn finds -/

section Turn

variable {s : Sesion} {x : Entrada} {t : Turno}

/-- The resolver counts the products of the session again and leaves the rest of them. -/
theorem turno_productos
    (ht : turnoDe U x.entorno s.archiva.paraElAgente x.mensaje x.extraccion = .ok (.turno t))
    {q : Producto} (hq : q ∈ t.estado.productosAbiertos) :
    ∃ p ∈ s.inicio.productosAbiertos, ∃ n, q = { p with qty := n } := by
  rcases turnoDe_cases ht with ⟨he, -, -⟩ | ⟨actos, hablar, -, hres, -, -⟩
  · have he' : t.estado = s.inicio := he
    exact ⟨q, he' ▸ hq, q.qty, rfl⟩
  · obtain ⟨prods, qs, hrec, he', -⟩ := resolver_origen hres
    have hrec' : Recontados (· ∈ peticiones U s.inicio actos) s.inicio.productosAbiertos prods := hrec
    have hview : Recontado s.inicio t.estado prods := he' ▸ recontado hrec'
    obtain ⟨p, hp, n, hn, -⟩ := recontados_mem hrec' (hview.productos ▸ hq)
    exact ⟨p, hp, n, hn⟩

/-- A product before rule 7 is new, with no attempt taken, or one of the session. -/
def DeSesion (e : Estado) (i : Item) : Prop :=
  ∀ p, i = .producto p → (p.nuevo → p.intentos = none) ∧
    (p.nuevo = false → ∃ p₀ ∈ e.productosAbiertos, p₀.texto = p.texto ∧ p₀.intentos = p.intentos)

theorem editable_deSesion (e : Estado) : Editable (DeSesion e) where
  revisar texto qty p hp := by cases hp
  conflicto c p hp := by cases hp
  siNo v p hp := by cases hp
  abre texto qty p hp := by
    cases hp
    exact ⟨fun _ => rfl, fun h => by cases h⟩
  cambia q qty opciones rechazados hq p hp := by
    cases hp
    exact hq q rfl

theorem antesDe7_deSesion (h : s.inicio.EnOrden)
    (ht : turnoDe U x.entorno s.archiva.paraElAgente x.mensaje x.extraccion = .ok (.turno t))
    {p : Producto} (hp : p ∈ t.antesDe7.e.productosAbiertos) : DeSesion s.inicio (.producto p) := by
  have hstart : Todos (DeSesion s.inicio) t.estado.openItems := by
    rintro i hi q rfl
    obtain ⟨q₀, hq₀, n, rfl⟩ := turno_productos ht (mem_productosAbiertos.mpr hi)
    have hmark := (h.marcas q₀ hq₀).1
    exact ⟨fun hn => by simp [hmark] at hn, fun _ => ⟨q₀, hq₀, rfl, rfl⟩⟩
  have hpass : Todos (DeSesion s.inicio) (t.tras t.ops).e.openItems :=
    tras_todos (editable_deSesion _) hstart
  exact regla11_todos (editable_deSesion _) hpass _ (mem_productosAbiertos.mp hp)

/-- Exhausting the attempts takes one of them. -/
theorem Turno.Agota.gasta (h : s.inicio.EnOrden)
    (ht : turnoDe U x.entorno s.archiva.paraElAgente x.mensaje x.extraccion = .ok (.turno t))
    {p : Producto} (ha : t.Agota p) : t.Gasta p := by
  obtain ⟨hp, hmax⟩ := ha
  refine ⟨hp, ?_⟩
  obtain ⟨hnew, hold⟩ := antesDe7_deSesion h ht hp p rfl
  have hpos : maxIntentosProducto = 2 := rfl
  unfold intentosTras at hmax ⊢
  cases hprog : t.progresa with
  | true => simp [hprog, hpos] at hmax
  | false =>
    cases hn : p.nuevo with
    | true => simp [hprog, hn, hnew hn, hpos] at hmax
    | false => simp

end Turn

/-! ## The reply of a turn -/

section Reply

variable {t : Turno} {intro resume : Bool}

theorem cerrado_of_mem_hechos {cart : List Linea} {rs : List Texto}
    (h : Hecho.cerrado cart rs ∈ t.hechos intro resume) : Hecho.cerrado cart rs ∈ t.resultado.hechos := by
  unfold Turno.hechos at h
  dsimp only at h
  split at h
  · split at h
    · exact h
    · rcases List.mem_cons.mp h with h | h
      · cases h
      · exact h
  · split at h
    · cases h
    · split at h
      · rcases List.mem_append.mp h with h | h
        · exact h
        · cases List.mem_singleton.mp h
      · exact h

theorem resultado_hechos (t : Turno) : ∃ ks,
    t.resultado.hechos = (regla7 t.antesDe7).hechos ++ ks ∧ ∀ k ∈ ks, Hecho.neutral k :=
  aplicar_hechos t.fuenteMedia t.estado t.cantidadGlobal t.ops

/-- A turn without progress closes nothing. -/
theorem not_confirmado (hp : t.progresa = false) : ¬ Confirmado (t.hechos intro resume) := by
  rintro ⟨cart, rs, h⟩
  obtain ⟨ks, hk, hn⟩ := resultado_hechos t
  obtain ⟨ls, hl, hln⟩ := regla7Items_hechos (t.antesDe7.hechos.any Hecho.progreso)
    t.antesDe7.hechos t.antesDe7.e.openItems t.antesDe7.hechos
  have hmem := cerrado_of_mem_hechos h
  have hseven : (regla7 t.antesDe7).hechos = t.antesDe7.hechos ++ ls := hl
  rw [hk, hseven, List.append_assoc] at hmem
  rcases List.mem_append.mp hmem with hmem | hmem
  · have hsome : t.progresa := List.any_eq_true.mpr ⟨_, hmem, rfl⟩
    rw [hp] at hsome
    cases hsome
  · rcases List.mem_append.mp hmem with hmem | hmem
    · cases hln _ hmem
    · cases hn _ hmem

/-- The reply of a turn without progress asks about the first products of its facts. -/
theorem preguntados_of_estancado {c : Carta} {bs : List Bloque} (hp : t.progresa = false)
    (hbs : bloquesDe U (t.hechos intro resume) t.resultado.estado c = some bs) :
    preguntados bs = (textosDeProducto (t.hechos intro resume)).take questionBudget := by
  have hrep := repartido_partesDe (U := U) (c := c) (e := t.resultado.estado) (t.hechos intro resume)
  have hopen : ¬ (partesDe U (t.hechos intro resume) t.resultado.estado c).cierre.isSome :=
    fun hc => not_confirmado hp (hrep.cierre.mp hc)
  rw [preguntados, (preguntasDe_bloquesDe hbs).1, if_neg hopen, preguntados_partesDe]

end Reply

/-! ## Runs -/

section Runs

variable {ch ch' : Charla} {y : Entrada × Carta}

/-- What every turn keeps: the open items in order, and the last reply among the replies. -/
structure Charla.EnRegla (ch : Charla) : Prop where
  orden : (Estado.fromSession ch.sesion).EnOrden
  ultima : ch.ultima ⊆ ch.preguntados

theorem pasoCharla_enRegla (h : pasoCharla U ch y = some ch') (hch : ch.EnRegla) : ch'.EnRegla := by
  obtain ⟨s, hs, h⟩ := Option.bind_eq_some_iff.mp h
  have horden := pasoSesion_enOrden hs hch.orden
  have hsame {ch' : Charla} (heq : some { ch with sesion := s } = some ch') : ch'.EnRegla := by
    obtain rfl := Option.some.inj heq
    exact ⟨horden, hch.ultima⟩
  split at h
  · exact hsame h
  · split at h
    · split at h
      · exact hsame h
      · obtain ⟨bs, -, rfl⟩ := Option.map_eq_some_iff.mp h
        exact ⟨horden, List.subset_append_right _ _⟩
    · exact hsame h

/-- Without progress an old product loses an attempt, and is exhausted when it was the last. -/
theorem intentosTras_old {t : Turno} {p : Producto} (hprog : t.progresa = false)
    (hold : p.nuevo = false) : intentosTras t.progresa p = p.intentos.getD 0 + 1 := by
  simp [intentosTras, hprog, hold]

/-- In every run, a turn keeps to the law exactly when it makes progress or nobody waits. -/
theorem preguntadoAntes_iff {t : Turno} {bs : List Bloque}
    (h : Reachable (pasoCharla U) Libre {} ch)
    (ht : turnoDe U y.1.entorno ch.sesion.archiva.paraElAgente y.1.mensaje y.1.extraccion =
      .ok (.turno t))
    (hbs : bloquesDe U (t.hechos y.1.intro y.1.resume) t.resultado.estado y.2 = some bs) :
    PreguntadoAntes ch t bs ↔ NadieEspera ch t (t.hechos y.1.intro y.1.resume) := by
  have hch : ch.EnRegla := h.invariant ⟨vacio_enOrden [], List.Subset.refl []⟩
    fun _ _ _ _ hp hi => pasoCharla_enRegla hp hi
  have hini := inicio_enOrden hch.orden
  constructor
  · intro hpa
    by_cases hprog : t.progresa
    · exact Or.inl hprog
    · refine Or.inr fun p hp hold => ?_
      have hprog : t.progresa = false := by simpa using hprog
      have htras := intentosTras_old hprog hold
      have hg : t.Gasta p := ⟨hp, by omega⟩
      refine ⟨hpa.espera p hg, fun hleft => ?_⟩
      have ha : ¬ t.Agota p := fun ha => by
        have := ha.2
        omega
      rw [← preguntados_of_estancado hprog hbs]
      exact hpa.propia p hg ha
  · intro hn
    have hwait {p : Producto} (hg : t.Gasta p) : p.texto ∈ ch.ultima ∧
        (p.intentos.getD 0 + 1 < maxIntentosProducto →
          p.texto ∈ (textosDeProducto (t.hechos y.1.intro y.1.resume)).take questionBudget) := by
      obtain ⟨hprog, hold⟩ := hg.estancado
      exact (hn.resolve_left (by simp [hprog])) p hg.1 hold
    refine ⟨fun p ha => ?_, fun p hg => (hwait hg).1, fun p hg ha => ?_⟩
    · exact hch.ultima (hwait (ha.gasta hini ht)).1
    · obtain ⟨hprog, hold⟩ := hg.estancado
      have htras := intentosTras_old hprog hold
      have hleft : p.intentos.getD 0 + 1 < maxIntentosProducto := by
        by_contra hno
        exact ha ⟨hg.1, by omega⟩
      rw [preguntados_of_estancado hprog hbs]
      exact (hwait hg).2 hleft

/-- A greeting, which settles nothing. -/
def saluda : Entrada := ⟨soloKajal, "hola",
  extraccionDe [[("tipo", .str "otro"), ("subtipo", .str "saludo"), ("evidencia", .str "hola")]],
  false, false, false⟩

/-- The turn that follows the run, its reply, and what `f` makes of them. -/
def trasCharla {β : Type*} (ys : List (Entrada × Carta)) (y : Entrada × Carta)
    (f : Charla → Turno → List Bloque → β) : Option β :=
  (run (pasoCharla .latin) {} ys).bind fun ch =>
    ((turnoDe .latin y.1.entorno ch.sesion.archiva.paraElAgente y.1.mensaje
      y.1.extraccion).toOption.bind Desenlace.turno?).bind fun t =>
        (bloquesDe .latin (t.hechos y.1.intro y.1.resume) t.resultado.estado y.2).map (f ch t)

theorem trasCharla_eq_some {β : Type*} {ys : List (Entrada × Carta)} {f : Charla → Turno → List Bloque → β}
    {b : β} (h : trasCharla ys y f = some b) : ∃ ch t bs, Reachable (pasoCharla .latin) Libre {} ch ∧
      turnoDe .latin y.1.entorno ch.sesion.archiva.paraElAgente y.1.mensaje y.1.extraccion =
        .ok (.turno t) ∧
      bloquesDe .latin (t.hechos y.1.intro y.1.resume) t.resultado.estado y.2 = some bs ∧
      f ch t bs = b := by
  obtain ⟨ch, hch, h⟩ := Option.bind_eq_some_iff.mp h
  obtain ⟨t, ht, h⟩ := Option.bind_eq_some_iff.mp h
  obtain ⟨bs, hbs, hf⟩ := Option.map_eq_some_iff.mp h
  refine ⟨ch, t, bs, (reachable_of_replay _ hch .refl).mono fun _ _ _ => trivial, ?_, hbs, hf⟩
  generalize turnoDe .latin y.1.entorno ch.sesion.archiva.paraElAgente y.1.mensaje
    y.1.extraccion = d at ht
  cases d with
  | error err => cases ht
  | ok d =>
    cases d with
    | turno u => exact congrArg (Except.ok ∘ Desenlace.turno) (Option.some.inj ht)
    | nada => cases ht
    | inferenceDown => cases ht

/-- One unknown article, asked about before a turn that settles nothing. -/
theorem pinzas_asked_before_attempt : ∃ ch t bs,
    turnoDe .latin saluda.entorno ch.sesion.archiva.paraElAgente saluda.mensaje saluda.extraccion =
      .ok (.turno t) ∧
    t.progresa = false ∧ ch.ultima = [("pinzas doradas" : Texto)] ∧ PreguntadoAntes ch t bs := by
  have hrun : trasCharla [(pideDos, cartaDeJuan)] (saluda, cartaDeJuan) (fun ch t _ =>
      (decide (NadieEspera ch t (t.hechos false false)), t.progresa, ch.ultima)) =
        some (true, false, [("pinzas doradas" : Texto)]) := by
    decide +kernel
  obtain ⟨ch, t, bs, hch, ht, hbs, hf⟩ := trasCharla_eq_some hrun
  obtain ⟨hn, hf⟩ := Prod.mk.inj hf
  obtain ⟨hp, hu⟩ := Prod.mk.inj hf
  exact ⟨ch, t, bs, ht, hp, hu, (preguntadoAntes_iff hch ht hbs).mpr (of_decide_eq_true hn)⟩

/-- Three unknown articles: the budget holds the third back. -/
def pideTres : Entrada := ⟨soloKajal, "2 pinzas doradas, 3 limas azules y 4 borlas grandes",
  extraccionDe [actoPedir "pinzas doradas" "2 pinzas doradas" 2,
    actoPedir "limas azules" "3 limas azules" 3, actoPedir "borlas grandes" "4 borlas grandes" 4],
  false, false, false⟩

/-- The third article goes to review after two turns that settle nothing, and no reply ever asked
about it. -/
theorem third_article_reviewed_unasked :
    ¬ ∀ ch (y : Entrada × Carta) t bs, Reachable (pasoCharla .latin) Libre {} ch →
      turnoDe .latin y.1.entorno ch.sesion.archiva.paraElAgente y.1.mensaje y.1.extraccion =
        .ok (.turno t) →
      bloquesDe .latin (t.hechos y.1.intro y.1.resume) t.resultado.estado y.2 = some bs →
      PreguntadoAntes ch t bs := by
  intro h
  have hrun : trasCharla [(pideTres, cartaDeJuan), (saluda, cartaDeJuan)] (saluda, cartaDeJuan)
      (fun ch t _ => (ch.preguntados, (t.antesDe7.e.productosAbiertos.map fun p =>
        (p.texto, intentosTras t.progresa p)))) =
        some ([("pinzas doradas" : Texto), "limas azules", "pinzas doradas", "limas azules"],
          [(("pinzas doradas" : Texto), 2), ("limas azules", 2), ("borlas grandes", 2)]) := by
    decide +kernel
  obtain ⟨ch, t, bs, hch, ht, hbs, hf⟩ := trasCharla_eq_some hrun
  obtain ⟨hasked, hopen⟩ := Prod.mk.inj hf
  have hmem : (("borlas grandes" : Texto), 2) ∈ t.antesDe7.e.productosAbiertos.map fun p =>
      (p.texto, intentosTras t.progresa p) := by
    rw [hopen]
    exact List.mem_cons_of_mem _ (List.mem_cons_of_mem _ List.mem_cons_self)
  obtain ⟨p, hp, heq⟩ := List.mem_map.mp hmem
  obtain ⟨htexto, htras⟩ := Prod.mk.inj heq
  have hrev := (h ch _ t bs hch ht hbs).revision p ⟨hp, htras.ge⟩
  rw [hasked, htexto] at hrev
  revert hrev
  decide

end Runs

end Chatlink.Agent
