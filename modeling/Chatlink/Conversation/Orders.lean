import Chatlink.Agent.Closing
import Chatlink.Conversation.Ingest

/-!
# Closed orders in the running system

The system of messages and turns together with what a turn does to the order: the
columns of the session the agent reads and writes, and the table of closed orders. A
turn works on the row it read at its start; it writes only when it commits, and the
commit of a turn that closed its order writes the order in the same transaction. An
exception, a restart and a turn that the salesman made needless leave cart, open items,
status and orders as they were.
-/
namespace Chatlink.Conversation

open Lists Transition

/-- The system with its orders. `leida` is the session as the running turn read it and
`escrita` is what its commit will write. -/
structure Pedidos where
  base : Sistema := inicial
  sesiones : Clave → Agent.Sesion := fun _ => {}
  ordenes : List (Clave × Agent.KapaOrder) := []
  leida : Agent.Sesion := {}
  escrita : Option (Agent.Sesion × Option Agent.KapaOrder) := none

/-- A step of the system, or the agent of the running turn comes to its result. -/
inductive AccionPedido where
  | sistema (a : Accion)
  | agente (x : Agent.Entrada) (reply : Texto) (optOut : Bool)

/-- The salesman has written since the turn read the table. -/
def Sistema.adelantado (s : Sistema) (l : Lectura) : Bool := l.lastSalesmanId < s.newer l.clave

/-- The input of the agent in the turn `l`. -/
def entradaDe (s : Sistema) (l : Lectura) (x : Agent.Entrada) : Agent.Entrada :=
  { x with mensaje := l.currentMessage, adelantado := s.adelantado l }

def pasoPedidos (cfg : Config) (U : Unicode) (p : Pedidos) : AccionPedido → Option Pedidos
  | .agente x reply optOut =>
    match p.base.bucle with
    | .agente _ l _ =>
      (Agent.runTurn U p.leida (entradaDe p.base l x)).bind fun r =>
        (paso cfg p.base (.comprueba reply optOut)).map fun b =>
          if p.base.adelantado l then
            { p with base := b, sesiones := Function.update p.sesiones l.clave r.1 }
          else { p with base := b, escrita := some r }
    | _ => none
  | .sistema (.comprueba _ _) => none
  | .sistema .escribe =>
    match p.base.bucle, p.escrita with
    | .comprobado _ l _ _ _, some r =>
      (paso cfg p.base .escribe).map fun b =>
        { p with
          base := b
          sesiones := Function.update p.sesiones l.clave r.1
          ordenes := p.ordenes ++ r.2.toList.map fun k => (l.clave, k) }
    | _, _ => none
  | .sistema a =>
    (paso cfg p.base a).map fun b =>
      { p with
        base := b
        leida := match b.bucle with
          | .leido _ l _ => p.sesiones l.clave
          | _ => p.leida }

/-! ## What a session says of its order -/

/-- The order that a session stands for. -/
def pedidoDe (s : Agent.Sesion) : Agent.KapaOrder :=
  ⟨s.cart, (s.openItems.filterMap Agent.coerceOpenItem).filterMap Agent.Item.revisar?⟩

/-- Cart, open items and status are the same. -/
structure MismoPedido (s s' : Agent.Sesion) : Prop where
  cart : s'.cart = s.cart
  openItems : s'.openItems = s.openItems
  orderStatus : s'.orderStatus = s.orderStatus

theorem MismoPedido.refl (s : Agent.Sesion) : MismoPedido s s := ⟨rfl, rfl, rfl⟩

theorem MismoPedido.pedido {s s' : Agent.Sesion} (h : MismoPedido s s') :
    pedidoDe s' = pedidoDe s := by
  rw [pedidoDe, pedidoDe, h.cart, h.openItems]

theorem mismoPedido_archiva (s : Agent.Sesion) : MismoPedido s s.archiva := by
  unfold Agent.Sesion.archiva
  split <;> exact ⟨rfl, rfl, rfl⟩

/-- What a turn of the agent leaves: the same order, if the salesman wrote meanwhile;
else a session and, exactly when it is closed, its order. -/
theorem runTurn_pedido {U : Unicode} {s s' : Agent.Sesion} {x : Agent.Entrada}
    {k : Option Agent.KapaOrder} (h : Agent.runTurn U s x = some (s', k)) :
    (x.adelantado → MismoPedido s s' ∧ k = none) ∧
      (x.adelantado = false → k = if s'.orderStatus = .closed then some (pedidoDe s') else none) := by
  unfold Agent.runTurn at h
  dsimp only at h
  split at h
  · cases h
  · next r hr =>
    split at h
    · cases h
    · split at h
      · next ha =>
        cases h
        refine ⟨fun _ => ⟨mismoPedido_archiva s, rfl⟩, fun hno => ?_⟩
        rw [ha] at hno
        cases hno
      · next ha =>
        cases h
        refine ⟨fun hyes => absurd hyes ha, fun _ => ?_⟩
        simp only [Agent.Sesion.tras, pedidoDe, Agent.coerceOpenItem_tipado]
        rfl

/-! ## What a step of the base system does to the running turn -/

section Base

variable {cfg : Config} {s s' : Sistema} {a : Accion}

/-- A turn that is about to commit was so before, unless the agent has just answered. -/
theorem paso_comprobado (h : paso cfg s a = some s') (ha : ∀ r o, a ≠ .comprueba r o)
    {q : Consulta} {l : Lectura} {reply : Texto} {optOut : Bool} {ks : List Clave}
    (hb' : s'.bucle = .comprobado q l reply optOut ks) :
    s.bucle = .comprobado q l reply optOut ks := by
  cases paso_cases h with
  | reloj d => exact hb'
  | llega k d => exact hb'
  | quita i => exact hb'
  | prepara message ht hf => exact hb'
  | inserta ht hf => exact hb'
  | confirma ht hf => exact hb'
  | done x fin hb => cases hb'
  | responde x hb hr => cases hb'
  | anota ok hb => cases hb'
  | reinicia => cases hb'
  | avanza hav =>
    cases hav with
    | comprueba r o hb hn => exact absurd rfl (ha r o)
    | _ => cases hb'

/-- An exception in the loop writes nothing. -/
theorem paso_falla (h : paso cfg s .falla = some s') :
    s'.filas = s.filas ∧ s'.sesiones = s.sesiones := by
  have hb : pasoBucle cfg s .falla = some s' := h
  simp only [pasoBucle] at hb
  split at hb <;> cases hb <;> exact ⟨rfl, rfl⟩

/-- A turn in progress was in progress before, or has just read the table. -/
theorem paso_enCurso (h : paso cfg s a = some s') {q : Consulta} {l : Lectura} {ks : List Clave}
    (hc : s'.bucle.enCurso = some (q, l, ks)) :
    s'.sesiones = s.sesiones ∧
      ((∃ l₀, s.bucle.enCurso = some (q, l₀, ks) ∧ l₀.clave = l.clave ∧ l₀.pending = l.pending) ∨
        (s'.filas = s.filas ∧ s'.bucle = .leido q l ks ∧
          ∃ k enabled, a = .lee enabled ∧ l = s.lectura cfg k enabled)) := by
  cases paso_cases h with
  | reloj d => exact ⟨rfl, Or.inl ⟨l, hc, rfl, rfl⟩⟩
  | llega k d => exact ⟨rfl, Or.inl ⟨l, hc, rfl, rfl⟩⟩
  | quita i => exact ⟨rfl, Or.inl ⟨l, hc, rfl, rfl⟩⟩
  | prepara message ht hf => exact ⟨rfl, Or.inl ⟨l, hc, rfl, rfl⟩⟩
  | inserta ht hf => exact ⟨rfl, Or.inl ⟨l, hc, rfl, rfl⟩⟩
  | confirma ht hf => exact ⟨rfl, Or.inl ⟨l, hc, rfl, rfl⟩⟩
  | done x fin hb => cases hc
  | responde x hb hr => cases hc
  | anota ok hb => cases hc
  | reinicia => cases hc
  | avanza hav =>
    refine ⟨rfl, ?_⟩
    cases hav with
    | tick hb hks => cases hc
    | sigue hb => cases hc
    | lee enabled hb hp =>
      obtain ⟨rfl, rfl, rfl⟩ : _ ∧ _ ∧ _ := by simpa [Bucle.enCurso] using hc
      exact Or.inr ⟨rfl, rfl, _, enabled, rfl, rfl⟩
    | @criba _ q₀ l₀ ks₀ x hb =>
      obtain ⟨rfl, rfl, rfl⟩ : _ ∧ _ ∧ _ := by simpa [Bucle.enCurso] using hc
      exact Or.inl ⟨l₀, by rw [hb]; rfl, rfl, rfl⟩
    | comprueba reply optOut hb hn =>
      obtain ⟨rfl, rfl, rfl⟩ : _ ∧ _ ∧ _ := by simpa [Bucle.enCurso] using hc
      exact Or.inl ⟨_, by rw [hb]; rfl, rfl, rfl⟩
    | carga c => cases hc
    | entrega hb => cases hc
    | reposo => cases hc

/-- A stored message stays as it is; deliveries change only the marks of a row. -/
theorem paso_filas (h : paso cfg s a = some s') {f : Fila} (hf : f ∈ s.filas) :
    ∃ f' ∈ s'.filas, f'.id = f.id ∧ f'.clave = f.clave ∧ f'.message = f.message ∧
      f'.clientMsg = f.clientMsg := by
  cases paso_cases h with
  | reloj d => exact ⟨f, hf, rfl, rfl, rfl, rfl⟩
  | llega k d => exact ⟨f, hf, rfl, rfl, rfl, rfl⟩
  | quita i => exact ⟨f, hf, rfl, rfl, rfl, rfl⟩
  | prepara message ht hft => exact ⟨f, hf, rfl, rfl, rfl, rfl⟩
  | inserta ht hft => exact ⟨f, hf, rfl, rfl, rfl, rfl⟩
  | confirma ht hft => exact ⟨f, List.mem_append_left _ hf, rfl, rfl, rfl, rfl⟩
  | avanza hav => exact ⟨f, hf, rfl, rfl, rfl, rfl⟩
  | done x fin hb => exact ⟨f, hf, rfl, rfl, rfl, rfl⟩
  | responde x hb hr => exact ⟨f, List.mem_append_left _ hf, rfl, rfl, rfl, rfl⟩
  | reinicia => exact ⟨f, hf, rfl, rfl, rfl, rfl⟩
  | @anota c row rows ok hb =>
    refine ⟨_, List.mem_map.mpr ⟨f, hf, rfl⟩, ?_⟩
    split
    · exact ⟨rfl, rfl, rfl, rfl⟩
    · exact ⟨rfl, rfl, rfl, rfl⟩

/-- The messages of a turn are stored and above the cursor. -/
def SiguePendiente (s : Sistema) (l : Lectura) : Prop :=
  ∀ m ∈ l.pending, (s.sesiones l.clave).lastAnsweredId < m.id ∧
    ∃ f ∈ s.filas, f.id = m.id ∧ f.clave = l.clave ∧ f.message = m.message ∧ f.clientMsg

theorem siguePendiente_paso (h : paso cfg s a = some s')
    (hs : ∀ q l ks, s.bucle.enCurso = some (q, l, ks) → SiguePendiente s l) {q : Consulta}
    {l : Lectura} {ks : List Clave} (hc : s'.bucle.enCurso = some (q, l, ks)) :
    SiguePendiente s' l := by
  obtain ⟨hses, hcur⟩ := paso_enCurso h hc
  intro m hm
  rw [hses]
  rcases hcur with ⟨l₀, hl₀, hk, hp⟩ | ⟨hf, -, k, enabled, -, rfl⟩
  · obtain ⟨hlt, f, hf, hid, hkf, hmsg, hcl⟩ := hs q l₀ ks hl₀ m (hp ▸ hm)
    obtain ⟨f', hf', hid', hkf', hmsg', hcl'⟩ := paso_filas h hf
    refine ⟨hk ▸ hlt, f', hf', hid'.trans hid, ?_, hmsg'.trans hmsg, hcl'.trans hcl⟩
    rw [hkf', hkf, hk]
  · obtain ⟨hload, hcl, hlt, -⟩ := mem_pending.mp hm
    obtain ⟨hmem, hkm⟩ := mem_conversacion.mp (mem_of_mem_loadHistory hload)
    exact ⟨hlt, m, hf ▸ hmem, rfl, hkm, rfl, hcl⟩

end Base

/-! ## Runs -/

section Runs

variable {cfg : Config} {U : Unicode} {p p' : Pedidos} {a : AccionPedido}

/-- The running turn holds what the table holds, and every closed session has its
order. -/
structure Respaldado (U : Unicode) (p : Pedidos) : Prop where
  leida : ∀ q l ks, p.base.bucle.enCurso = some (q, l, ks) → p.leida = p.sesiones l.clave
  escrita : ∀ q l reply optOut ks, p.base.bucle = .comprobado q l reply optOut ks →
    ∃ x r, x.adelantado = false ∧ p.escrita = some r ∧ Agent.runTurn U p.leida x = some r
  pendiente : ∀ q l ks, p.base.bucle.enCurso = some (q, l, ks) → SiguePendiente p.base l
  cerradas : ∀ k, (p.sesiones k).orderStatus = .closed → (k, pedidoDe (p.sesiones k)) ∈ p.ordenes

/-- What a step of the system with orders can be. -/
inductive PasoPedido (cfg : Config) (U : Unicode) (p : Pedidos) : AccionPedido → Pedidos → Prop
  | descarta {q l ks x reply optOut r b} (hb : p.base.bucle = .agente q l ks)
      (hrun : Agent.runTurn U p.leida (entradaDe p.base l x) = some r)
      (hpaso : paso cfg p.base (.comprueba reply optOut) = some b)
      (had : p.base.adelantado l = true) :
      PasoPedido cfg U p (.agente x reply optOut)
        { p with base := b, sesiones := Function.update p.sesiones l.clave r.1 }
  | contesta {q l ks x reply optOut r b} (hb : p.base.bucle = .agente q l ks)
      (hrun : Agent.runTurn U p.leida (entradaDe p.base l x) = some r)
      (hpaso : paso cfg p.base (.comprueba reply optOut) = some b)
      (had : p.base.adelantado l = false) :
      PasoPedido cfg U p (.agente x reply optOut) { p with base := b, escrita := some r }
  | escribe {q l reply optOut ks r b} (hb : p.base.bucle = .comprobado q l reply optOut ks)
      (hr : p.escrita = some r) (hpaso : paso cfg p.base .escribe = some b) :
      PasoPedido cfg U p (.sistema .escribe)
        { p with
          base := b
          sesiones := Function.update p.sesiones l.clave r.1
          ordenes := p.ordenes ++ r.2.toList.map fun k => (l.clave, k) }
  | otro {a : Accion} {b} (hc : ∀ r o, a ≠ .comprueba r o) (he : a ≠ .escribe)
      (hpaso : paso cfg p.base a = some b) :
      PasoPedido cfg U p (.sistema a)
        { p with
          base := b
          leida := match b.bucle with
            | .leido _ l _ => p.sesiones l.clave
            | _ => p.leida }

theorem pasoPedidos_cases (h : pasoPedidos cfg U p a = some p') : PasoPedido cfg U p a p' := by
  unfold pasoPedidos at h
  split at h
  · split at h
    · next hb =>
      obtain ⟨r, hrun, h⟩ := Option.bind_eq_some_iff.mp h
      obtain ⟨b, hpaso, rfl⟩ := Option.map_eq_some_iff.mp h
      split
      · next had => exact .descarta hb hrun hpaso had
      · next had => exact .contesta hb hrun hpaso (Bool.eq_false_iff.mpr had)
    · cases h
  · cases h
  · split at h
    · next hb hr =>
      obtain ⟨b, hpaso, rfl⟩ := Option.map_eq_some_iff.mp h
      exact .escribe hb hr hpaso
    · cases h
  · next a hc he =>
    obtain ⟨b, hpaso, rfl⟩ := Option.map_eq_some_iff.mp h
    exact .otro hc he hpaso

/-- What one step does to sessions and orders. -/
structure OrdersKept (cfg : Config) (U : Unicode) (p : Pedidos) (a : AccionPedido)
    (p' : Pedidos) : Prop where
  /-- Only the commit of a turn changes an order, and it writes the closed order with it. -/
  commit : a = .sistema .escribe → ∃ k x s' o, x.adelantado = false ∧
    Agent.runTurn U (p.sesiones k) x = some (s', o) ∧
    p'.sesiones = Function.update p.sesiones k s' ∧
    (s'.orderStatus = .closed → p'.ordenes = p.ordenes ++ [(k, pedidoDe s')]) ∧
    (s'.orderStatus ≠ .closed → p'.ordenes = p.ordenes)
  /-- Every other step, an exception, a restart or a dropped turn among them. -/
  intact : a ≠ .sistema .escribe →
    (∀ k, MismoPedido (p.sesiones k) (p'.sesiones k)) ∧ p'.ordenes = p.ordenes
  /-- The messages of a turn that raises are still pending. -/
  pending : a = .sistema .falla → p'.base.filas = p.base.filas ∧
    p'.base.sesiones = p.base.sesiones ∧
    ∀ q l ks, p.base.bucle.enCurso = some (q, l, ks) → SiguePendiente p'.base l
  closed : ∀ k, (p'.sesiones k).orderStatus = .closed →
    (k, pedidoDe (p'.sesiones k)) ∈ p'.ordenes

/-- The running turn is the agent's and its result is known. -/
theorem enCurso_comprueba {s s' : Sistema} {q : Consulta} {l : Lectura} {ks : List Clave}
    {reply : Texto} {optOut : Bool} (hb : s.bucle = .agente q l ks)
    (h : paso cfg s (.comprueba reply optOut) = some s') :
    s'.bucle = if s.adelantado l then .turnos q ks else .comprobado q l reply optOut ks := by
  have ht : (pasoTurno cfg s (.comprueba reply optOut)).or none = some s' := h
  rw [Option.or_none] at ht
  simp only [pasoTurno, hb] at ht
  by_cases had : l.lastSalesmanId < s.newer l.clave
  · rw [if_pos had] at ht
    obtain rfl := Option.some.inj ht
    simp [Sistema.adelantado, had, Sistema.done]
  · rw [if_neg had] at ht
    obtain rfl := Option.some.inj ht
    simp [Sistema.adelantado, had]

theorem escribe_bucle {s s' : Sistema} (h : paso cfg s .escribe = some s') :
    s'.bucle.enCurso = none := by
  have ht : (pasoTurno cfg s .escribe).or none = some s' := h
  rw [Option.or_none] at ht
  simp only [pasoTurno] at ht
  split at ht
  · obtain rfl := Option.some.inj ht
    unfold Sistema.commit
    dsimp only
    split <;> rfl
  · cases ht

/-- A session that stands for the same order keeps the order it has. -/
theorem cerradas_update {f : Clave → Agent.Sesion} {os : List (Clave × Agent.KapaOrder)}
    (h : ∀ k, (f k).orderStatus = .closed → (k, pedidoDe (f k)) ∈ os) {k₀ : Clave}
    {s : Agent.Sesion} (hs : s.orderStatus = .closed → (k₀, pedidoDe s) ∈ os) (k : Clave)
    (hk : (Function.update f k₀ s k).orderStatus = .closed) :
    (k, pedidoDe (Function.update f k₀ s k)) ∈ os := by
  rcases eq_or_ne k k₀ with rfl | hne
  · rw [Function.update_self] at hk ⊢
    exact hs hk
  · rw [Function.update_of_ne hne] at hk ⊢
    exact h k hk

theorem Respaldado.escrita_run (hp : Respaldado U p) {q : Consulta} {l : Lectura} {reply : Texto}
    {optOut : Bool} {ks : List Clave} (hb : p.base.bucle = .comprobado q l reply optOut ks)
    {r : Agent.Sesion × Option Agent.KapaOrder} (hr : p.escrita = some r) :
    ∃ x : Agent.Entrada, x.adelantado = false ∧ Agent.runTurn U p.leida x = some r := by
  obtain ⟨x, r', hx, hr', hrun⟩ := hp.escrita q l reply optOut ks hb
  obtain rfl := Option.some.inj (hr.symm.trans hr')
  exact ⟨x, hx, hrun⟩

theorem respaldado_inicial : Respaldado U {} where
  leida q l ks h := by cases h
  escrita q l reply optOut ks h := by cases h
  pendiente q l ks h := by cases h
  cerradas k h := by cases h

theorem respaldado_paso (h : pasoPedidos cfg U p a = some p') (hp : Respaldado U p) :
    Respaldado U p' := by
  cases pasoPedidos_cases h with
  | @descarta q l ks x reply optOut r b hb hrun hpaso had =>
    have hbucle : b.bucle = .turnos q ks := by rw [enCurso_comprueba hb hpaso, had]; rfl
    have hcur : b.bucle.enCurso = none := by rw [hbucle]; rfl
    have hsame : MismoPedido (p.sesiones l.clave) r.1 := by
      rw [← hp.leida q l ks (by rw [hb]; rfl)]
      exact ((runTurn_pedido hrun).1 had).1
    constructor
    · intro q' l' ks' hc
      cases hcur.symm.trans hc
    · intro q' l' reply' optOut' ks' hc
      cases hbucle.symm.trans hc
    · intro q' l' ks' hc
      cases hcur.symm.trans hc
    · refine cerradas_update hp.cerradas fun hcl => ?_
      rw [hsame.pedido]
      exact hp.cerradas _ (hsame.orderStatus.symm.trans hcl)
  | @contesta q l ks x reply optOut r b hb hrun hpaso had =>
    have hcur : p.base.bucle.enCurso = some (q, l, ks) := by rw [hb]; rfl
    constructor
    · intro q' l' ks' hc
      rcases (paso_enCurso hpaso hc).2 with ⟨l₀, hl₀, hk, -⟩ | ⟨-, -, k, enabled, ha, -⟩
      · exact hk ▸ hp.leida q' l₀ ks' hl₀
      · cases ha
    · intro q' l' reply' optOut' ks' hc
      exact ⟨_, r, had, rfl, hrun⟩
    · intro q' l' ks' hc
      exact siguePendiente_paso hpaso hp.pendiente hc
    · exact hp.cerradas
  | @escribe q l reply optOut ks r b hb hr hpaso =>
    have hcur : b.bucle.enCurso = none := escribe_bucle hpaso
    obtain ⟨x, hx, hrun⟩ := hp.escrita_run hb hr
    have hk := (runTurn_pedido hrun).2 hx
    constructor
    · intro q' l' ks' hc
      cases hcur.symm.trans hc
    · intro q' l' reply' optOut' ks' hc
      rw [show b.bucle = _ from hc] at hcur
      cases hcur
    · intro q' l' ks' hc
      cases hcur.symm.trans hc
    · refine cerradas_update (fun k h => List.mem_append_left _ (hp.cerradas k h)) fun hcl => ?_
      rw [hk, if_pos hcl]
      exact List.mem_append_right _ (List.mem_singleton.mpr rfl)
  | @otro a b hc he hpaso =>
    constructor
    · intro q' l' ks' hcur
      rcases (paso_enCurso hpaso hcur).2 with ⟨l₀, hl₀, hk, -⟩ | ⟨-, hbucle, -⟩
      · dsimp only
        split
        · next l₁ _ hb =>
          rw [show b.bucle = _ from hb] at hcur
          obtain ⟨-, rfl, -⟩ : _ ∧ _ ∧ _ := by simpa [Bucle.enCurso] using hcur
          rfl
        · exact hk ▸ hp.leida q' l₀ ks' hl₀
      · dsimp only
        rw [hbucle]
    · intro q' l' reply' optOut' ks' hb'
      have hb := paso_comprobado hpaso hc hb'
      have hb'' : b.bucle = .comprobado q' l' reply' optOut' ks' := hb'
      dsimp only
      rw [hb'']
      exact hp.escrita q' l' reply' optOut' ks' hb
    · intro q' l' ks' hcur
      exact siguePendiente_paso hpaso hp.pendiente hcur
    · exact hp.cerradas

theorem reachable_respaldado (h : Reachable (pasoPedidos cfg U) Libre {} p) : Respaldado U p :=
  h.invariant respaldado_inicial fun _ _ _ _ hs hi => respaldado_paso hs hi

/-- Every step of every run keeps the orders: a turn that commits a closed session writes
its order with it, once, and no other step touches an order. -/
theorem orders_kept (h : Reachable (pasoPedidos cfg U) Libre {} p)
    (hs : pasoPedidos cfg U p a = some p') : OrdersKept cfg U p a p' := by
  have hp := reachable_respaldado h
  have hp' := respaldado_paso hs hp
  refine ⟨?_, ?_, ?_, hp'.cerradas⟩
  · rintro rfl
    cases pasoPedidos_cases hs with
    | otro hc he hpaso => exact absurd rfl he
    | @escribe q l reply optOut ks r b hb hr hpaso =>
      obtain ⟨x, hx, hrun⟩ := hp.escrita_run hb hr
      have hk := (runTurn_pedido hrun).2 hx
      rw [hp.leida q l ks (by rw [hb]; rfl)] at hrun
      refine ⟨l.clave, x, r.1, r.2, hx, hrun, rfl, fun hcl => ?_, fun hcl => ?_⟩
      · rw [hk, if_pos hcl]
        rfl
      · rw [hk, if_neg hcl]
        exact List.append_nil _
  · intro ha
    cases pasoPedidos_cases hs with
    | @descarta q l ks x reply optOut r b hb hrun hpaso had =>
      refine ⟨fun k => ?_, rfl⟩
      rcases eq_or_ne k l.clave with rfl | hne
      · dsimp only
        rw [Function.update_self, ← hp.leida q l ks (by rw [hb]; rfl)]
        exact ((runTurn_pedido hrun).1 had).1
      · dsimp only
        rw [Function.update_of_ne hne]
        exact .refl _
    | contesta hb hrun hpaso had => exact ⟨fun k => .refl _, rfl⟩
    | escribe hb hr hpaso => exact absurd rfl ha
    | otro hc he hpaso => exact ⟨fun k => .refl _, rfl⟩
  · rintro rfl
    cases pasoPedidos_cases hs with
    | otro hc he hpaso =>
      obtain ⟨hf, hses⟩ := paso_falla hpaso
      refine ⟨hf, hses, fun q l ks hcur m hm => ?_⟩
      dsimp only
      rw [hf, hses]
      exact hp.pendiente q l ks hcur m hm

end Runs

/-- A message of the client is stored, waits, and its turn comes to a result. -/
def hastaElResultado (x : Agent.Entrada) : List AccionPedido :=
  [.sistema (.llega cliente .received), .sistema (.prepara 0 x.mensaje), .sistema (.inserta 0),
    .sistema (.confirma 0), .sistema (.avanza 900), .sistema (.tick [cliente]),
    .sistema (.lee true), .sistema (.criba true), .agente x "apuntado" false]

/-- The turn commits and the rest of the tick delivers its reply. -/
def hastaElReposo : List AccionPedido :=
  [.sistema .escribe, .sistema .carga, .sistema .entrega, .sistema (.anota true), .sistema .carga,
    .sistema .duerme]

/-- The client orders, asks to close, and says yes: the commit is next. -/
def runConfirmed : List AccionPedido :=
  hastaElResultado Agent.pideDos ++ hastaElReposo ++ hastaElResultado Agent.cierra ++
    hastaElReposo ++ hastaElResultado Agent.confirma

theorem orders_kept_of_runConfirmed :
    ∃ p p', run (pasoPedidos (.porDefecto .latin) .latin) {} runConfirmed = some p ∧
      pasoPedidos (.porDefecto .latin) .latin p (.sistema .escribe) = some p' ∧
      p.ordenes = [] ∧ p'.ordenes.map (fun o => o.2.cart.map Agent.Linea.code) = [[("KJ401" : Texto)]] ∧
      OrdersKept (.porDefecto .latin) .latin p (.sistema .escribe) p' := by
  have hrun : ((run (pasoPedidos (.porDefecto .latin) .latin) {} runConfirmed).bind fun p =>
      (pasoPedidos (.porDefecto .latin) .latin p (.sistema .escribe)).map fun p' =>
        (p.ordenes, p'.ordenes.map fun o => o.2.cart.map Agent.Linea.code)) =
      some ([], [[("KJ401" : Texto)]]) := by
    decide +kernel
  obtain ⟨p, hp, hlast⟩ := Option.bind_eq_some_iff.mp hrun
  obtain ⟨p', hp', heq⟩ := Option.map_eq_some_iff.mp hlast
  obtain ⟨hnil, hcodes⟩ := Prod.mk.inj heq
  refine ⟨p, p', hp, hp', hnil, hcodes, ?_⟩
  have hreach : Reachable (pasoPedidos (.porDefecto .latin) .latin) Libre {} p :=
    (reachable_of_replay _ hp .refl).mono fun _ _ _ => trivial
  exact orders_kept hreach hp'

end Chatlink.Conversation
