import Chatlink.Delivery.Outbox

/-!
# Delivery goes on when one row fails

A tick that meets no exception tries every queued reply and order once and counts the
try, whatever the transports answer; a row is out of the queue after as many tries as
the configuration allows. An exception at one row leaves it and all that would have
come after it untried or uncounted, so the condition is also necessary.
-/
namespace Chatlink.Delivery

open Conversation (Canal Clave Status Config)
open Sweep

variable {cfg : Config} {amb : Ambiente} {s : Salida}

/-! ## One try -/

/-- Neither the lookup nor the transport raises for a reply. -/
def RespuestaTranquila (amb : Ambiente) (f : Conversation.Fila) : Prop :=
  ∃ user, amb.salesmanOf (pieza f) f.clave.canal f.clave.userId = some user ∧
    amb.send (pieza f) (peticionRespuesta f user) ≠ .excepcion

/-- Neither the lookup, nor the workbook, nor the transport raises for an order; without
an address the last two are not reached. -/
def OrdenTranquila (amb : Ambiente) (o : Orden) : Prop :=
  ∃ user, amb.salesmanOf (.pedido o.id) o.clave.canal o.clave.userId = some user ∧
    ((user.map Comercial.email).getD [] = [] ∨
      amb.workbook o.hoja = true ∧
        amb.send (.pedido o.id) (o.peticion ((user.map Comercial.email).getD [])) ≠ .excepcion)

theorem entregaRespuesta_isSome {f : Conversation.Fila} :
    (entregaRespuesta cfg amb f).isSome ↔ RespuestaTranquila amb f := by
  unfold entregaRespuesta RespuestaTranquila
  cases amb.salesmanOf (pieza f) f.clave.canal f.clave.userId with
  | none => simp
  | some user =>
    cases hsend : amb.send (pieza f) (peticionRespuesta f user) <;> simp [hsend]

theorem anotaOrden_isSome {o : Orden} {toEmail : Texto} {r : Envio} :
    (anotaOrden cfg amb o toEmail r).isSome ↔ r ≠ .excepcion := by
  cases r <;> simp [anotaOrden]

theorem entregaOrden_isSome {o : Orden} :
    (entregaOrden cfg amb o).isSome ↔ OrdenTranquila amb o := by
  unfold entregaOrden OrdenTranquila
  cases amb.salesmanOf (.pedido o.id) o.clave.canal o.clave.userId with
  | none => simp
  | some user =>
    by_cases hto : (user.map Comercial.email).getD [] = []
    · simp [hto, anotaOrden_isSome]
    · by_cases hw : amb.workbook o.hoja
      · simp [hto, hw, anotaOrden_isSome]
      · simp [hto, hw]

theorem entregaRespuesta_some {f f' : Conversation.Fila} {ws : List Llamada}
    (h : entregaRespuesta cfg amb f = some (f', ws)) : ∃ ok, f' = f.trasEnvio cfg ok := by
  unfold entregaRespuesta at h
  split at h
  · cases h
  · split at h
    · cases h
    · cases h
      exact ⟨true, rfl⟩
    · cases h
      exact ⟨false, rfl⟩

theorem anotaOrden_some {o o' : Orden} {toEmail : Texto} {r : Envio} {ws : List Llamada}
    (h : anotaOrden cfg amb o toEmail r = some (o', ws)) : ∃ ok, o' = o.trasEnvio cfg ok := by
  cases r with
  | excepcion => cases h
  | hecho =>
    cases h
    exact ⟨true, rfl⟩
  | fallo error =>
    cases h
    exact ⟨false, rfl⟩

theorem entregaOrden_some {o o' : Orden} {ws : List Llamada}
    (h : entregaOrden cfg amb o = some (o', ws)) : ∃ ok, o' = o.trasEnvio cfg ok := by
  unfold entregaOrden at h
  split at h
  · cases h
  · dsimp only at h
    split at h
    · exact anotaOrden_some h
    · split at h
      · exact anotaOrden_some h
      · cases h

/-- A try is counted, and the last one allowed takes the row out of the queue. -/
structure Contado (cfg : Config) (attempts attempts' : ℕ) (status' : Status) : Prop where
  counted : attempts' = attempts + 1
  marked : cfg.sendAttempts ≤ attempts' → status' = .sent ∨ status' = .failed

theorem contado_respuesta (f : Conversation.Fila) (ok : Bool) :
    Contado cfg f.attempts (f.trasEnvio cfg ok).attempts (f.trasEnvio cfg ok).status := by
  refine ⟨rfl, fun h => ?_⟩
  have h' : cfg.sendAttempts ≤ f.attempts + 1 := h
  cases ok <;> simp [Conversation.Fila.trasEnvio, h']

theorem contado_orden (o : Orden) (ok : Bool) :
    Contado cfg o.attempts (o.trasEnvio cfg ok).attempts (o.trasEnvio cfg ok).emailStatus := by
  refine ⟨rfl, fun h => ?_⟩
  have h' : cfg.sendAttempts ≤ o.attempts + 1 := h
  cases ok <;> simp [Orden.trasEnvio, h']

/-! ## One tick -/

/-- Nothing that is queued raises. -/
structure Tranquila (amb : Ambiente) (s : Salida) : Prop where
  respuestas : ∀ f ∈ s.respuestas, f.enCola = true → RespuestaTranquila amb f
  ordenes : ∀ o ∈ s.ordenes, o.enCola = true → OrdenTranquila amb o

/-- Every queued row is tried once and its try is counted. -/
structure Isolated (cfg : Config) (amb : Ambiente) (s : Salida) : Prop where
  tried : (entrega cfg amb s).probadas = s.enCola
  replies : ∀ (i : ℕ) (f : Conversation.Fila), s.respuestas[i]? = some f → f.enCola = true →
    ∃ f', (entrega cfg amb s).salida.respuestas[i]? = some f' ∧ f'.id = f.id ∧ f'.clave = f.clave ∧
      Contado cfg f.attempts f'.attempts f'.status
  orders : ∀ (i : ℕ) (o : Orden), s.ordenes[i]? = some o → o.enCola = true →
    ∃ o', (entrega cfg amb s).salida.ordenes[i]? = some o' ∧ o'.id = o.id ∧
      Contado cfg o.attempts o'.attempts o'.emailStatus

section Tick

variable (cfg amb s)

/-- The sweeps of a tick over the two tables and over the orders. -/
def barridoWhatsapp : Outcome Conversation.Fila Llamada :=
  sweep (enCola .whatsapp) (entregaRespuesta cfg amb) s.respuestas

def barridoEmail : Outcome Conversation.Fila Llamada :=
  sweep (enCola .email) (entregaRespuesta cfg amb) (barridoWhatsapp cfg amb s).items

def barridoOrdenes : Outcome Orden Llamada :=
  sweep Orden.enCola (entregaOrden cfg amb) s.ordenes

variable {cfg amb s}

theorem entrega_of_whatsapp (h : (barridoWhatsapp cfg amb s).complete = false) :
    entrega cfg amb s = ⟨{ s with respuestas := (barridoWhatsapp cfg amb s).items },
      (barridoWhatsapp cfg amb s).tried.map pieza, (barridoWhatsapp cfg amb s).reports, false⟩ := by
  have hno : ¬ (barridoWhatsapp cfg amb s).complete = true := Bool.eq_false_iff.mp h
  have hq : sendQueued cfg amb s = sendChannel cfg amb .whatsapp s := if_neg hno
  have he : entrega cfg amb s = sendQueued cfg amb s := by
    rw [entrega, hq]
    exact if_neg hno
  rw [he, hq, ← h]
  rfl

theorem sendQueued_of_whatsapp (h : (barridoWhatsapp cfg amb s).complete = true) :
    sendQueued cfg amb s = ⟨{ s with respuestas := (barridoEmail cfg amb s).items },
      (barridoWhatsapp cfg amb s).tried.map pieza ++ (barridoEmail cfg amb s).tried.map pieza,
      (barridoWhatsapp cfg amb s).reports ++ (barridoEmail cfg amb s).reports,
      (barridoEmail cfg amb s).complete⟩ :=
  if_pos h

theorem entrega_of_email (hw : (barridoWhatsapp cfg amb s).complete = true)
    (h : (barridoEmail cfg amb s).complete = false) :
    entrega cfg amb s = ⟨{ s with respuestas := (barridoEmail cfg amb s).items },
      (barridoWhatsapp cfg amb s).tried.map pieza ++ (barridoEmail cfg amb s).tried.map pieza,
      (barridoWhatsapp cfg amb s).reports ++ (barridoEmail cfg amb s).reports, false⟩ := by
  rw [entrega, sendQueued_of_whatsapp hw, Pasada.luego, h]
  rfl

theorem entrega_of_queued (hw : (barridoWhatsapp cfg amb s).complete = true)
    (he : (barridoEmail cfg amb s).complete = true) :
    entrega cfg amb s =
      ⟨⟨(barridoEmail cfg amb s).items, (barridoOrdenes cfg amb s).items⟩,
        (barridoWhatsapp cfg amb s).tried.map pieza ++ (barridoEmail cfg amb s).tried.map pieza ++
          (barridoOrdenes cfg amb s).tried.map fun o => .pedido o.id,
        (barridoWhatsapp cfg amb s).reports ++ (barridoEmail cfg amb s).reports ++
          (barridoOrdenes cfg amb s).reports,
        (barridoOrdenes cfg amb s).complete⟩ := by
  rw [entrega, sendQueued_of_whatsapp hw, Pasada.luego, he]
  rfl

/-- The first sweep leaves the queue of the second table alone. -/
theorem barridoWhatsapp_email :
    (barridoWhatsapp cfg amb s).items.filter (enCola .email) = s.respuestas.filter (enCola .email) := by
  refine sweep_filter fun f f' ws hf hact => ?_
  obtain ⟨ok, rfl⟩ := entregaRespuesta_some hact
  have hc : f.clave.canal = .whatsapp := by simpa [enCola] using (Bool.and_eq_true_iff.mp hf).1
  simp [enCola, Conversation.Fila.trasEnvio, hc]

theorem quiet_barridoEmail :
    Quiet (enCola .email) (entregaRespuesta cfg amb) (barridoWhatsapp cfg amb s).items ↔
      Quiet (enCola .email) (entregaRespuesta cfg amb) s.respuestas := by
  rw [quiet_iff_filter, quiet_iff_filter, barridoWhatsapp_email]

/-- Nothing raises exactly when all three sweeps go through. -/
theorem tranquila_iff (cfg : Config) : Tranquila amb s ↔ (barridoWhatsapp cfg amb s).complete = true ∧
    (barridoEmail cfg amb s).complete = true ∧ (barridoOrdenes cfg amb s).complete = true := by
  rw [barridoWhatsapp, barridoEmail, barridoOrdenes, sweep_complete_iff, sweep_complete_iff,
    sweep_complete_iff, quiet_barridoEmail]
  constructor
  · intro h
    refine ⟨fun f hf hq => ?_, fun f hf hq => ?_, fun o ho hq => ?_⟩
    · exact entregaRespuesta_isSome.mpr (h.respuestas f hf (Bool.and_eq_true_iff.mp hq).2)
    · exact entregaRespuesta_isSome.mpr (h.respuestas f hf (Bool.and_eq_true_iff.mp hq).2)
    · exact entregaOrden_isSome.mpr (h.ordenes o ho hq)
  · rintro ⟨hw, he, ho⟩
    refine ⟨fun f hf hq => ?_, fun o hmem hq => entregaOrden_isSome.mp (ho o hmem hq)⟩
    cases hc : f.clave.canal with
    | whatsapp => exact entregaRespuesta_isSome.mp (hw f hf (by simp [enCola, hc, hq]))
    | email => exact entregaRespuesta_isSome.mp (he f hf (by simp [enCola, hc, hq]))

/-- What is not queued is left alone by every tick. -/
theorem entrega_otra_respuesta {i : ℕ} {f : Conversation.Fila} (hi : s.respuestas[i]? = some f)
    (hf : f.enCola = false) : (entrega cfg amb s).salida.respuestas[i]? = some f := by
  have hno (c : Canal) : ¬ enCola c f = true := by simp [enCola, hf]
  have hw : (barridoWhatsapp cfg amb s).items[i]? = some f := sweep_other hi (hno _)
  have he : (barridoEmail cfg amb s).items[i]? = some f := sweep_other hw (hno _)
  cases hcw : (barridoWhatsapp cfg amb s).complete with
  | false => rwa [entrega_of_whatsapp hcw]
  | true =>
    cases hce : (barridoEmail cfg amb s).complete with
    | false => rwa [entrega_of_email hcw hce]
    | true => rwa [entrega_of_queued hcw hce]

theorem entrega_otra_orden {i : ℕ} {o : Orden} (hi : s.ordenes[i]? = some o)
    (ho : o.enCola = false) : (entrega cfg amb s).salida.ordenes[i]? = some o := by
  have hs : (barridoOrdenes cfg amb s).items[i]? = some o := sweep_other hi (by simp [ho])
  cases hcw : (barridoWhatsapp cfg amb s).complete with
  | false => rwa [entrega_of_whatsapp hcw]
  | true =>
    cases hce : (barridoEmail cfg amb s).complete with
    | false => rwa [entrega_of_email hcw hce]
    | true => rwa [entrega_of_queued hcw hce]

/-- The row of the second table at which the tick stops is the one that was stored. -/
theorem respuesta_of_barrido {i : ℕ} {f : Conversation.Fila}
    (hi : (barridoWhatsapp cfg amb s).items[i]? = some f) (hf : f.clave.canal = .email) :
    s.respuestas[i]? = some f := by
  rcases sweep_origin hi with h | ⟨g, ws, -, hg, hact⟩
  · exact h
  · obtain ⟨ok, rfl⟩ := entregaRespuesta_some hact
    have hc : g.clave.canal = .whatsapp := by simpa [enCola] using (Bool.and_eq_true_iff.mp hg).1
    cases hc.symm.trans hf

/-- A quiet tick tries every queued reply. -/
theorem entrega_respuesta (cfg : Config) (h : Tranquila amb s) {i : ℕ} {f : Conversation.Fila}
    (hi : s.respuestas[i]? = some f) (hf : f.enCola = true) :
    ∃ ok, (entrega cfg amb s).salida.respuestas[i]? = some (f.trasEnvio cfg ok) := by
  obtain ⟨hw, he, -⟩ := (tranquila_iff cfg).mp h
  rw [entrega_of_queued hw he]
  cases hc : f.clave.canal with
  | whatsapp =>
    obtain ⟨f', ws, hact, hitem⟩ :=
      sweep_item (sweep_complete_iff.mp hw) hi (by simp [enCola, hc, hf])
    obtain ⟨ok, rfl⟩ := entregaRespuesta_some hact
    refine ⟨ok, sweep_other hitem ?_⟩
    simp [enCola, Conversation.Fila.trasEnvio, hc]
  | email =>
    have hi' : (barridoWhatsapp cfg amb s).items[i]? = some f :=
      sweep_other hi (by simp [enCola, hc])
    obtain ⟨f', ws, hact, hitem⟩ :=
      sweep_item (sweep_complete_iff.mp he) hi' (by simp [enCola, hc, hf])
    obtain ⟨ok, rfl⟩ := entregaRespuesta_some hact
    exact ⟨ok, hitem⟩

theorem entrega_orden (cfg : Config) (h : Tranquila amb s) {i : ℕ} {o : Orden} (hi : s.ordenes[i]? = some o)
    (ho : o.enCola = true) :
    ∃ ok, (entrega cfg amb s).salida.ordenes[i]? = some (o.trasEnvio cfg ok) := by
  obtain ⟨hw, he, hord⟩ := (tranquila_iff cfg).mp h
  rw [entrega_of_queued hw he]
  obtain ⟨o', ws, hact, hitem⟩ := sweep_item (sweep_complete_iff.mp hord) hi ho
  obtain ⟨ok, rfl⟩ := entregaOrden_some hact
  exact ⟨ok, hitem⟩

theorem isolated_of_tranquila (h : Tranquila amb s) : Isolated cfg amb s := by
  obtain ⟨hw, he, ho⟩ := (tranquila_iff cfg).mp h
  refine ⟨?_, ?_, ?_⟩
  · rw [entrega_of_queued hw he, barridoWhatsapp, sweep_tried (sweep_complete_iff.mp hw),
      barridoEmail, sweep_tried (sweep_complete_iff.mp he), barridoWhatsapp_email,
      barridoOrdenes, sweep_tried (sweep_complete_iff.mp ho)]
    rfl
  · intro i f hi hf
    obtain ⟨ok, hok⟩ := entrega_respuesta cfg h hi hf
    exact ⟨_, hok, rfl, rfl, contado_respuesta f ok⟩
  · intro i o hi hq
    obtain ⟨ok, hok⟩ := entrega_orden cfg h hi hq
    exact ⟨_, hok, rfl, contado_orden o ok⟩

/-- A row that a tick leaves as it was has not been counted. -/
theorem Isolated.respuesta_moves (h : Isolated cfg amb s) {i : ℕ} {f : Conversation.Fila}
    (hi : s.respuestas[i]? = some f) (hf : f.enCola = true) :
    (entrega cfg amb s).salida.respuestas[i]? ≠ some f := by
  intro hsame
  obtain ⟨f', hf', -, -, hcount⟩ := h.replies i f hi hf
  obtain rfl : f = f' := Option.some.inj (hsame.symm.trans hf')
  have := hcount.counted
  omega

theorem Isolated.orden_moves (h : Isolated cfg amb s) {i : ℕ} {o : Orden}
    (hi : s.ordenes[i]? = some o) (ho : o.enCola = true) :
    (entrega cfg amb s).salida.ordenes[i]? ≠ some o := by
  intro hsame
  obtain ⟨o', ho', -, hcount⟩ := h.orders i o hi ho
  obtain rfl : o = o' := Option.some.inj (hsame.symm.trans ho')
  have := hcount.counted
  omega

theorem tranquila_of_isolated (h : Isolated cfg amb s) : Tranquila amb s := by
  rw [tranquila_iff cfg]
  cases hw : (barridoWhatsapp cfg amb s).complete with
  | false =>
    obtain ⟨i, f, hi, hf, hitem⟩ := sweep_stopped hw
    refine absurd ?_ (h.respuesta_moves hi (Bool.and_eq_true_iff.mp hf).2)
    rw [entrega_of_whatsapp hw]
    exact hitem
  | true =>
    cases he : (barridoEmail cfg amb s).complete with
    | false =>
      obtain ⟨i, f, hi, hf, hitem⟩ := sweep_stopped he
      obtain ⟨hc, hq⟩ := Bool.and_eq_true_iff.mp hf
      refine absurd ?_ (h.respuesta_moves (respuesta_of_barrido hi (by simpa using hc)) hq)
      rw [entrega_of_email hw he]
      exact hitem
    | true =>
      cases ho : (barridoOrdenes cfg amb s).complete with
      | false =>
        obtain ⟨i, o, hi, hq, hitem⟩ := sweep_stopped ho
        refine absurd ?_ (h.orden_moves hi hq)
        rw [entrega_of_queued hw he]
        exact hitem
      | true => exact ⟨rfl, rfl, rfl⟩

theorem isolated_iff : Isolated cfg amb s ↔ Tranquila amb s :=
  ⟨tranquila_of_isolated, isolated_of_tranquila⟩

end Tick

/-! ## Runs -/

section Runs

def SucesoSalida.esTick : SucesoSalida → Bool
  | .tick _ => true
  | _ => false

/-- In a run, each tick tries and counts every queued row, and a row that is queued before
as many ticks as there are tries is out of the queue after them. -/
structure DeliveryIsolated (cfg : Config) (s : Salida) (evs : List SucesoSalida) : Prop where
  eachTick : ∀ xs amb ys, evs = xs ++ .tick amb :: ys → Isolated cfg amb (trasSucesos cfg s xs)
  replies : ∀ xs ys, evs = xs ++ ys → max 1 cfg.sendAttempts ≤ ys.countP SucesoSalida.esTick →
    ∀ (i : ℕ) (f : Conversation.Fila), (trasSucesos cfg s xs).respuestas[i]? = some f →
      f.enCola = true → ∃ f', (trasSucesos cfg s evs).respuestas[i]? = some f' ∧
        (f'.status = .sent ∨ f'.status = .failed)
  orders : ∀ xs ys, evs = xs ++ ys → max 1 cfg.sendAttempts ≤ ys.countP SucesoSalida.esTick →
    ∀ (i : ℕ) (o : Orden), (trasSucesos cfg s xs).ordenes[i]? = some o →
      o.enCola = true → ∃ o', (trasSucesos cfg s evs).ordenes[i]? = some o' ∧
        (o'.emailStatus = .sent ∨ o'.emailStatus = .failed)

/-- Where a row stands that was queued with `a` tries and has been through `n` ticks. -/
def Espera (cfg : Config) (a n attempts : ℕ) (status : Status) : Prop :=
  (status = .sent ∨ status = .failed) ∨
    status = .queued ∧ attempts = a + n ∧ (0 < n → attempts < cfg.sendAttempts)

theorem Espera.marked {a n attempts : ℕ} {status : Status} (h : Espera cfg a n attempts status)
    (hn : max 1 cfg.sendAttempts ≤ n) : status = .sent ∨ status = .failed := by
  rcases h with h | ⟨-, hcount, hlt⟩
  · exact h
  · have := hlt (by omega)
    omega

theorem Espera.otro {a n attempts : ℕ} {status : Status} (h : Espera cfg a n attempts status) :
    status = .queued ∨ status = .sent ∨ status = .failed :=
  h.elim Or.inr fun h => Or.inl h.1

/-- One more try. -/
theorem Espera.prueba {a n attempts : ℕ} (h : Espera cfg a n attempts .queued) (ok : Bool) :
    Espera cfg a (n + 1) (attempts + 1)
      (if ok then .sent else if cfg.sendAttempts ≤ attempts + 1 then .failed else .queued) := by
  rcases h with h | ⟨-, hcount, -⟩
  · rcases h with h | h <;> cases h
  · cases ok with
    | true => exact Or.inl (Or.inl rfl)
    | false =>
      by_cases hle : cfg.sendAttempts ≤ attempts + 1
      · exact Or.inl (Or.inr (by simp [hle]))
      · refine Or.inr ⟨by simp [hle], by omega, fun _ => by omega⟩

variable {evs : List SucesoSalida}

/-- Nothing that is queued at a tick of the run raises in it. -/
def SiempreTranquila (cfg : Config) (s : Salida) (evs : List SucesoSalida) : Prop :=
  ∀ xs amb ys, evs = xs ++ .tick amb :: ys → Tranquila amb (trasSucesos cfg s xs)

theorem trasSucesos_concat (s : Salida) (evs : List SucesoSalida) (ev : SucesoSalida) :
    trasSucesos cfg s (evs ++ [ev]) = pasoSalida cfg (trasSucesos cfg s evs) ev := by
  simp [trasSucesos]

theorem trasSucesos_append (s : Salida) (xs ys : List SucesoSalida) :
    trasSucesos cfg s (xs ++ ys) = trasSucesos cfg (trasSucesos cfg s xs) ys :=
  List.foldl_append ..

theorem SiempreTranquila.init {ev : SucesoSalida} (h : SiempreTranquila cfg s (evs ++ [ev])) :
    SiempreTranquila cfg s evs := by
  intro xs amb ys heq
  exact h xs amb (ys ++ [ev]) (by simp [heq])

theorem SiempreTranquila.drop {xs ys : List SucesoSalida} (h : SiempreTranquila cfg s (xs ++ ys)) :
    SiempreTranquila cfg (trasSucesos cfg s xs) ys := by
  intro zs amb ws heq
  rw [← trasSucesos_append]
  exact h (xs ++ zs) amb ws (by simp [heq])

theorem respuesta_espera (h : SiempreTranquila cfg s evs) {i : ℕ} {f : Conversation.Fila}
    (hi : s.respuestas[i]? = some f) (hf : f.enCola = true) :
    ∃ f', (trasSucesos cfg s evs).respuestas[i]? = some f' ∧ f'.isBot = true ∧
      Espera cfg f.attempts (evs.countP SucesoSalida.esTick) f'.attempts f'.status := by
  induction evs using List.reverseRecOn with
  | nil =>
    obtain ⟨hbot, hq⟩ := Bool.and_eq_true_iff.mp hf
    exact ⟨f, hi, hbot, Or.inr ⟨by simpa using hq, rfl, fun h => absurd h (lt_irrefl 0)⟩⟩
  | append_singleton evs ev ih =>
    obtain ⟨f', hi', hbot, hesp⟩ := ih h.init
    rw [trasSucesos_concat, List.countP_append]
    cases ev with
    | responde g =>
      refine ⟨f', ?_, hbot, hesp⟩
      exact List.getElem?_append_left (List.getElem?_eq_some_iff.mp hi').1 ▸ hi'
    | cierra o => exact ⟨f', hi', hbot, hesp⟩
    | tick amb =>
      rcases hesp.otro with hq | hdone
      · obtain ⟨ok, hok⟩ := entrega_respuesta cfg (h evs amb [] rfl) hi'
          (by simp [Conversation.Fila.enCola, hbot, hq])
        rw [hq] at hesp
        refine ⟨_, hok, hbot, ?_⟩
        simpa [Conversation.Fila.trasEnvio, hq, SucesoSalida.esTick] using hesp.prueba ok
      · refine ⟨f', entrega_otra_respuesta hi' ?_, hbot, Or.inl hdone⟩
        rcases hdone with hst | hst <;> simp [Conversation.Fila.enCola, hst]

theorem orden_espera (h : SiempreTranquila cfg s evs) {i : ℕ} {o : Orden}
    (hi : s.ordenes[i]? = some o) (ho : o.enCola = true) :
    ∃ o', (trasSucesos cfg s evs).ordenes[i]? = some o' ∧
      Espera cfg o.attempts (evs.countP SucesoSalida.esTick) o'.attempts o'.emailStatus := by
  induction evs using List.reverseRecOn with
  | nil =>
    exact ⟨o, hi, Or.inr ⟨by simpa [Orden.enCola] using ho, rfl, fun h => absurd h (lt_irrefl 0)⟩⟩
  | append_singleton evs ev ih =>
    obtain ⟨o', hi', hesp⟩ := ih h.init
    rw [trasSucesos_concat, List.countP_append]
    cases ev with
    | responde g => exact ⟨o', hi', hesp⟩
    | cierra g =>
      refine ⟨o', ?_, hesp⟩
      exact List.getElem?_append_left (List.getElem?_eq_some_iff.mp hi').1 ▸ hi'
    | tick amb =>
      rcases hesp.otro with hq | hdone
      · obtain ⟨ok, hok⟩ := entrega_orden cfg (h evs amb [] rfl) hi'
          (by simp [Orden.enCola, hq])
        rw [hq] at hesp
        refine ⟨_, hok, ?_⟩
        simpa [Orden.trasEnvio, hq, SucesoSalida.esTick] using hesp.prueba ok
      · refine ⟨o', entrega_otra_orden hi' ?_, Or.inl hdone⟩
        rcases hdone with hst | hst <;> simp [Orden.enCola, hst]

/-- Delivery is isolated exactly in the runs in which nothing queued raises. -/
theorem deliveryIsolated_iff : DeliveryIsolated cfg s evs ↔ SiempreTranquila cfg s evs := by
  constructor
  · intro h xs amb ys heq
    exact isolated_iff.mp (h.eachTick xs amb ys heq)
  · intro h
    refine ⟨fun xs amb ys heq => isolated_iff.mpr (h xs amb ys heq), ?_, ?_⟩
    · rintro xs ys rfl hn i f hi hf
      obtain ⟨f', hf', -, hesp⟩ := respuesta_espera h.drop hi hf
      exact ⟨f', by rwa [trasSucesos_append], hesp.marked hn⟩
    · rintro xs ys rfl hn i o hi ho
      obtain ⟨o', ho', hesp⟩ := orden_espera h.drop hi ho
      exact ⟨o', by rwa [trasSucesos_append], hesp.marked hn⟩

end Runs

/-- The texts that `openpyxl` takes for a cell: no control character but tab and line
ends. -/
def celdaValida (t : Texto) : Bool :=
  t.all fun c => 32 ≤ c.toNat || c.toNat = 9 || c.toNat = 10 || c.toNat = 13

/-- Every lookup finds a salesman with an address and every transport delivers. -/
def todoBien : Ambiente where
  salesmanOf _ _ _ := some (some ⟨"ana@example.com", "34600999888"⟩)
  send _ _ := .hecho
  workbook hoja := hoja.all fun r => celdaValida r.codigo && celdaValida r.origen
  volcado _ := []

/-- An order whose only line is for the salesman to resolve, in the client's words. -/
def ordenDe (id : ℕ) (texto : Texto) : Orden where
  id := id
  clave := ⟨.whatsapp, "600111222", "600999888"⟩
  clientName := "Peluqueria Sol"
  pedido := ⟨[], [(texto, some 2)]⟩

/-- The client's words of the first order hold a control character: the workbook refuses
them, and the order behind it is not tried although nothing is wrong with it. -/
theorem control_character_stops_delivery :
    ¬ DeliveryIsolated (.porDefecto .latin)
      { ordenes := [ordenDe 1 "pinzas\x07doradas", ordenDe 2 "rimel azul"] } [.tick todoBien] := by
  intro h
  obtain ⟨o, ho, -, hcount⟩ :=
    (h.eachTick [] todoBien [] rfl).orders 1 (ordenDe 2 "rimel azul") (by decide) (by decide)
  have hsame : (entrega (.porDefecto .latin) todoBien
      { ordenes := [ordenDe 1 "pinzas\x07doradas", ordenDe 2 "rimel azul"] }).salida.ordenes[1]? =
      some (ordenDe 2 "rimel azul") := by
    decide
  obtain rfl : ordenDe 2 "rimel azul" = o := Option.some.inj (hsame.symm.trans ho)
  exact absurd hcount.counted (by decide)

end Chatlink.Delivery
