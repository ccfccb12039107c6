import Chatlink.Delivery.Isolation

/-!
# The loop and its alerts

A passage of the loop runs the turns that are due, each under an `except` that calls
`alert`, and delivers what is queued; `run_forever` catches what leaves the delivery. The
steps are the bodies of these loops, for one conversation or one row. Between them time
passes, the process may start again, and anybody may call `alert`.
-/
namespace Chatlink.Delivery

open Conversation (Clave Config)
open Sweep Transition

/-- The rows to deliver and the alerts. -/
structure Servicio where
  salida : Salida := {}
  alertas : Alertas := {}

/-- How `run_turn` ends: it raises, or it queues a reply and closes an order, each if any. -/
inductive Vuelta where
  | excepcion (error : Texto)
  | hecha (respuesta : Option Conversation.Fila) (pedido : Option Orden)

inductive Suceso where
  | avanza (d : ℕ)
  | turno (k : Clave) (vuelta : Vuelta)
  /-- `send_queued` comes to the reply at a place of the tables. -/
  | respuesta (i : ℕ) (amb : Ambiente)
  /-- `send_orders` comes to the order at a place. -/
  | pedido (i : ℕ) (amb : Ambiente)
  /-- Any other call of `alert`, that of `run_forever` among them. -/
  | llama (l : Llamada)
  /-- The process starts again, with an empty `_last`. -/
  | reinicia

namespace Servicio

variable (cfg : Config) (repeatS : ℕ) (v : Servicio)

/-- The loop body of `tick`. -/
def turno (k : Clave) : Vuelta → Servicio
  | .excepcion error => { v with alertas := v.alertas.alert repeatS (.turno k error) }
  | .hecha f o =>
    { v with salida := ⟨v.salida.respuestas ++ f.toList, v.salida.ordenes ++ o.toList⟩ }

/-- A try of a reply; what raises inside it leaves the row as it was. -/
def respuesta (i : ℕ) (amb : Ambiente) (f : Conversation.Fila) : Servicio :=
  match entregaRespuesta cfg amb f with
  | none => v
  | some (f', ws) =>
    { salida := { v.salida with respuestas := v.salida.respuestas.set i f' }
      alertas := ws.foldl (Alertas.alert repeatS) v.alertas }

/-- A try of an order. -/
def pedido (i : ℕ) (amb : Ambiente) (o : Orden) : Servicio :=
  match entregaOrden cfg amb o with
  | none => v
  | some (o', ws) =>
    { salida := { v.salida with ordenes := v.salida.ordenes.set i o' }
      alertas := ws.foldl (Alertas.alert repeatS) v.alertas }

def paso : Suceso → Option Servicio
  | .avanza d => some { v with alertas := { v.alertas with reloj := v.alertas.reloj + d } }
  | .turno k vuelta => some (v.turno repeatS k vuelta)
  | .respuesta i amb =>
    (v.salida.respuestas[i]?.filter Conversation.Fila.enCola).map (v.respuesta cfg repeatS i amb)
  | .pedido i amb => (v.salida.ordenes[i]?.filter Orden.enCola).map (v.pedido cfg repeatS i amb)
  | .llama l => some { v with alertas := v.alertas.alert repeatS l }
  | .reinicia => some { v with alertas := { v.alertas with last := fun _ => none } }

/-- One iteration of `run_forever`: `tick`, and the alert for what leaves it. -/
def iteracion (turnos : List (Clave × Vuelta)) (amb : Ambiente) (error : Texto) : Servicio :=
  let v := turnos.foldl (fun v t => v.turno repeatS t.1 t.2) v
  let p := entrega cfg amb v.salida
  let v := { salida := p.salida, alertas := p.avisos.foldl (Alertas.alert repeatS) v.alertas }
  if p.completa then v else { v with alertas := v.alertas.alert repeatS (.bucle error) }

end Servicio

/-- What a step does to the rows: a try replaces one of them, and nothing else but adds to them. -/
theorem paso_cases {cfg : Config} {repeatS : ℕ} {u v : Servicio} {a : Suceso}
    (hp : u.paso cfg repeatS a = some v) :
    (∃ i amb f f' ws, a = .respuesta i amb ∧ u.salida.respuestas[i]? = some f ∧
      entregaRespuesta cfg amb f = some (f', ws) ∧
      v = ⟨{ u.salida with respuestas := u.salida.respuestas.set i f' },
        ws.foldl (Alertas.alert repeatS) u.alertas⟩) ∨
    (∃ i amb o o' ws, a = .pedido i amb ∧ u.salida.ordenes[i]? = some o ∧
      entregaOrden cfg amb o = some (o', ws) ∧
      v = ⟨{ u.salida with ordenes := u.salida.ordenes.set i o' },
        ws.foldl (Alertas.alert repeatS) u.alertas⟩) ∨
    ∃ fs os, v.salida = ⟨u.salida.respuestas ++ fs, u.salida.ordenes ++ os⟩ := by
  cases a with
  | respuesta i amb =>
    obtain ⟨f, hf, rfl⟩ := Option.map_eq_some_iff.mp hp
    obtain ⟨hi, -⟩ := Option.filter_eq_some_iff.mp hf
    cases hact : entregaRespuesta cfg amb f with
    | none => exact .inr (.inr ⟨[], [], by simp [Servicio.respuesta, hact]⟩)
    | some r => exact .inl ⟨i, amb, f, r.1, r.2, rfl, hi, hact, by simp [Servicio.respuesta, hact]⟩
  | pedido i amb =>
    obtain ⟨o, ho, rfl⟩ := Option.map_eq_some_iff.mp hp
    obtain ⟨hi, -⟩ := Option.filter_eq_some_iff.mp ho
    cases hact : entregaOrden cfg amb o with
    | none => exact .inr (.inr ⟨[], [], by simp [Servicio.pedido, hact]⟩)
    | some r => exact .inr (.inl ⟨i, amb, o, r.1, r.2, rfl, hi, hact, by simp [Servicio.pedido, hact]⟩)
  | turno k vuelta =>
    obtain rfl := Option.some.inj hp
    cases vuelta with
    | excepcion error => exact .inr (.inr ⟨[], [], by simp [Servicio.turno]⟩)
    | hecha f o => exact .inr (.inr ⟨f.toList, o.toList, rfl⟩)
  | _ =>
    obtain rfl := Option.some.inj hp
    exact .inr (.inr ⟨[], [], by simp⟩)

/-! ## An iteration is a run of the steps -/

section Iteration

open Servicio

variable {cfg : Config} {repeatS : ℕ} {u v : Servicio} {x : Salida} {s : Alertas}
  (amb : Ambiente)

theorem turnos_reachable (turnos : List (Clave × Vuelta))
    (h : Reachable (paso cfg repeatS) Libre u v) :
    Reachable (paso cfg repeatS) Libre u (turnos.foldl (fun v t => v.turno repeatS t.1 t.2) v) := by
  induction turnos generalizing v with
  | nil => exact h
  | cons t turnos ih => exact ih (.tail (.turno t.1 t.2) h trivial rfl)

theorem sendChannel_reachable (c : Conversation.Canal)
    (h : Reachable (paso cfg repeatS) Libre u ⟨x, s⟩) :
    Reachable (paso cfg repeatS) Libre u ⟨(sendChannel cfg amb c x).salida,
      (sendChannel cfg amb c x).avisos.foldl (Alertas.alert repeatS) s⟩ := by
  refine sweep_invariant (t := s)
    (I := fun rows s => Reachable (paso cfg repeatS) Libre u ⟨{ x with respuestas := rows }, s⟩) [] ?_ h
  intro pre f post f' ws s hf hact hr
  have hq : f.enCola = true := (Bool.and_eq_true_iff.mp hf).2
  refine .tail (.respuesta pre.length amb) hr trivial ?_
  simp [paso, Option.filter, hq, Servicio.respuesta, hact]

theorem sendOrders_reachable (h : Reachable (paso cfg repeatS) Libre u ⟨x, s⟩) :
    Reachable (paso cfg repeatS) Libre u ⟨(sendOrders cfg amb x).salida,
      (sendOrders cfg amb x).avisos.foldl (Alertas.alert repeatS) s⟩ := by
  refine sweep_invariant (t := s)
    (I := fun rows s => Reachable (paso cfg repeatS) Libre u ⟨{ x with ordenes := rows }, s⟩) [] ?_ h
  intro pre o post o' ws s ho hact hr
  refine .tail (.pedido pre.length amb) hr trivial ?_
  simp [paso, Option.filter, ho, Servicio.pedido, hact]

/-- A part of the tick that is made of steps, after one that is. -/
theorem luego_reachable {p : Pasada} {parte : Salida → Pasada}
    (hparte : ∀ x s, Reachable (paso cfg repeatS) Libre u ⟨x, s⟩ →
      Reachable (paso cfg repeatS) Libre u
        ⟨(parte x).salida, (parte x).avisos.foldl (Alertas.alert repeatS) s⟩)
    (h : Reachable (paso cfg repeatS) Libre u ⟨p.salida, p.avisos.foldl (Alertas.alert repeatS) s⟩) :
    Reachable (paso cfg repeatS) Libre u
      ⟨(p.luego parte).salida, (p.luego parte).avisos.foldl (Alertas.alert repeatS) s⟩ := by
  unfold Pasada.luego
  split
  · simpa using hparte _ _ h
  · exact h

theorem entrega_reachable (h : Reachable (paso cfg repeatS) Libre u ⟨x, s⟩) :
    Reachable (paso cfg repeatS) Libre u
      ⟨(entrega cfg amb x).salida, (entrega cfg amb x).avisos.foldl (Alertas.alert repeatS) s⟩ := by
  refine luego_reachable (fun _ _ => sendOrders_reachable amb) ?_
  exact luego_reachable (fun _ _ => sendChannel_reachable amb .email)
    (sendChannel_reachable amb .whatsapp h)

/-- An iteration of the loop leads where steps lead. -/
theorem iteracion_reachable (turnos : List (Clave × Vuelta)) (error : Texto)
    (h : Reachable (paso cfg repeatS) Libre u v) :
    Reachable (paso cfg repeatS) Libre u (v.iteracion cfg repeatS turnos amb error) := by
  have hsent := entrega_reachable amb (turnos_reachable turnos h)
  unfold Servicio.iteracion
  dsimp only
  split
  · exact hsent
  · exact .tail (.llama (.bucle error)) hsent trivial rfl

end Iteration

end Chatlink.Delivery
