import Chatlink.Delivery.Loop
import Chatlink.Lib.Lists

/-!
# Whom the alerts name

A failed turn and a reply that is given up leave a client without an answer, an order
that is given up leaves the salesman without it. The alert of each names the client or
the order in its text, but the key of the first two holds only the channel and the
salesman: inside a repeat period the second client of a salesman is not reported. In
runs where that does not happen everybody is: the step that leaves somebody without an
answer calls `alert`, and an alert of the same key that keeps the call silent names the
same client or order.
-/
namespace Chatlink.Delivery

open Conversation (Canal Clave Config)
open Lists Transition

variable {cfg : Config} {repeatS : ℕ} {s : Alertas} {l g : Llamada} {u v : Servicio} {a : Suceso}

namespace Llamada

/-- The client or the order that is left without an answer. -/
def afectado : Llamada → Option Texto
  | turno k _ => some k.clientId
  | respuesta k _ => some k.clientId
  | pedido o _ _ _ => some (("order " : Texto) ++ Texto.ofNat o.id)
  | _ => none

/-- Two failures of one kind for different clients of one salesman on one channel. -/
def choca : Llamada → Llamada → Bool
  | turno k _, turno k' _ =>
    k.canal = k'.canal && k.userId = k'.userId && k.clientId ≠ k'.clientId
  | respuesta k _, respuesta k' _ =>
    k.canal = k'.canal && k.userId = k'.userId && k.clientId ≠ k'.clientId
  | _, _ => false

/-- An alert names whom it is about. -/
theorem afectado_text {n : Texto} (h : l.afectado = some n) : n <:+: l.text := by
  refine List.infix_of_mem_flatten ?_
  cases l with
  | turno k error =>
    obtain rfl : k.clientId = n := Option.some.inj h
    exact List.mem_cons_of_mem _ List.mem_cons_self
  | respuesta k error =>
    obtain rfl : k.clientId = n := Option.some.inj h
    exact List.mem_cons_of_mem _ List.mem_cons_self
  | pedido o toEmail error volcado =>
    obtain rfl : ("order " : Texto) ++ Texto.ofNat o.id = n := Option.some.inj h
    exact List.mem_cons_of_mem _ List.mem_cons_self
  | _ => cases h

theorem cabecera_code (c c' : Clase) (h : c.cabecera <+: c'.cabecera) : c = c' := by
  revert h
  cases c <;> cases c' <;> decide

theorem nombreCanal_code (c c' : Canal) (h : nombreCanal c <+: nombreCanal c') : c = c' := by
  revert h
  cases c <;> cases c' <;> decide

/-- Channel and salesman can be read off a key. -/
theorem canal_user_inj {k k' : Clave}
    (h : nombreCanal k.canal ++ ((":" : Texto) ++ k.userId) =
      nombreCanal k'.canal ++ ((":" : Texto) ++ k'.userId)) :
    k.canal = k'.canal ∧ k.userId = k'.userId := by
  obtain ⟨hc, hu⟩ := append_inj_of_code nombreCanal_code h
  exact ⟨hc, List.append_cancel_left hu⟩

/-- Two calls with one key are about the same client or order, unless they clash. -/
theorem afectado_of_key {n : Texto} (hk : g.key = l.key) (hl : l.afectado = some n)
    (hno : choca l g = false) : g.afectado = some n := by
  obtain ⟨hclase, hresto⟩ := append_inj_of_code cabecera_code hk
  cases l with
  | turno k error =>
    cases g with
    | turno k' error' =>
      obtain ⟨hc, hu⟩ := canal_user_inj hresto
      have hid : k.clientId = k'.clientId := by simpa [choca, hc, hu] using hno
      rw [← hl, afectado, afectado, hid]
    | _ => cases hclase
  | respuesta k error =>
    cases g with
    | respuesta k' error' =>
      obtain ⟨hc, hu⟩ := canal_user_inj hresto
      have hid : k.clientId = k'.clientId := by simpa [choca, hc, hu] using hno
      rw [← hl, afectado, afectado, hid]
    | _ => cases hclase
  | pedido o toEmail error volcado =>
    cases g with
    | pedido o' toEmail' error' volcado' =>
      have hid : Texto.ofNat o'.id = Texto.ofNat o.id := hresto
      rw [← hl, afectado, afectado, hid]
    | _ => cases hclase
  | _ => cases hl

end Llamada

/-! ## Who is left without an answer -/

/-- The transport answers that it cannot deliver the reply. -/
def Ambiente.rehusa (amb : Ambiente) (f : Conversation.Fila) : Bool :=
  match amb.salesmanOf (pieza f) f.clave.canal f.clave.userId with
  | none => false
  | some user =>
    match amb.send (pieza f) (peticionRespuesta f user) with
    | .fallo _ => true
    | _ => false

/-- The client or the order that a step leaves without an answer: a turn raises, or a row
that was queued is marked failed. -/
inductive SinAtender (u : Servicio) : Suceso → Servicio → Texto → Prop
  | turno {v : Servicio} (k : Clave) (error : Texto) :
    SinAtender u (.turno k (.excepcion error)) v k.clientId
  | respuesta {v : Servicio} {a : Suceso} {i : ℕ} {f f' : Conversation.Fila} :
    u.salida.respuestas[i]? = some f → f.enCola = true → v.salida.respuestas[i]? = some f' →
      f'.status = .failed → SinAtender u a v f.clave.clientId
  | pedido {v : Servicio} {a : Suceso} {i : ℕ} {o o' : Orden} :
    u.salida.ordenes[i]? = some o → o.enCola = true → v.salida.ordenes[i]? = some o' →
      o'.emailStatus = .failed → SinAtender u a v (("order " : Texto) ++ Texto.ofNat o.id)

theorem entregaRespuesta_failed {amb : Ambiente} {f f' : Conversation.Fila} {ws : List Llamada}
    (h : entregaRespuesta cfg amb f = some (f', ws)) (hq : f.enCola = true)
    (hf : f'.status = .failed) :
    amb.rehusa f = true ∧ cfg.sendAttempts ≤ f.attempts + 1 ∧
      ∃ error, ws = [.respuesta f.clave error] := by
  have hst : f.status = .queued := by simpa using (Bool.and_eq_true_iff.mp hq).2
  unfold entregaRespuesta at h
  split at h
  · cases h
  · next user huser =>
    split at h
    · cases h
    · cases h
      cases hf
    · next error hsend =>
      cases h
      refine ⟨by simp [Ambiente.rehusa, huser, hsend], ?_, error, if_pos hf⟩
      by_contra hlt
      simp [Conversation.Fila.trasEnvio, hlt, hst] at hf

theorem anotaOrden_failed {amb : Ambiente} {o o' : Orden} {toEmail : Texto} {r : Envio}
    {ws : List Llamada} (h : anotaOrden cfg amb o toEmail r = some (o', ws))
    (ho : o'.emailStatus = .failed) :
    ∃ error, ws = [.pedido o toEmail error (amb.volcado o.pedido)] := by
  cases r with
  | excepcion => cases h
  | hecho =>
    cases h
    cases ho
  | fallo error =>
    cases h
    exact ⟨error, if_pos ho⟩

theorem entregaOrden_failed {amb : Ambiente} {o o' : Orden} {ws : List Llamada}
    (h : entregaOrden cfg amb o = some (o', ws)) (ho : o'.emailStatus = .failed) :
    ∃ toEmail error, ws = [.pedido o toEmail error (amb.volcado o.pedido)] := by
  unfold entregaOrden at h
  split at h
  · cases h
  · dsimp only at h
    split at h
    · exact ⟨_, anotaOrden_failed h ho⟩
    · split at h
      · exact ⟨_, anotaOrden_failed h ho⟩
      · cases h

/-- A reply that leaves the queue undelivered does so in a try of its own, which calls. -/
theorem respuesta_fallida {i : ℕ} {f f' : Conversation.Fila}
    (hp : u.paso cfg repeatS a = some v) (hi : u.salida.respuestas[i]? = some f)
    (hq : f.enCola = true) (hi' : v.salida.respuestas[i]? = some f') (hf : f'.status = .failed) :
    ∃ amb error, a = .respuesta i amb ∧ amb.rehusa f = true ∧ cfg.sendAttempts ≤ f.attempts + 1 ∧
      v.alertas = u.alertas.alert repeatS (.respuesta f.clave error) := by
  have hmoved : v.salida.respuestas[i]? ≠ some f := by
    intro hkept
    obtain rfl : f = f' := Option.some.inj (hkept.symm.trans hi')
    simp [Conversation.Fila.enCola, hf] at hq
  obtain ⟨j, amb, g, g', ws, rfl, hj, hact, rfl⟩ | ⟨j, amb, o, o', ws, -, -, -, rfl⟩ | ⟨fs, os, hsal⟩ :=
    paso_cases hp
  · rcases eq_or_ne j i with rfl | hne
    · obtain rfl : f = g := Option.some.inj (hi.symm.trans hj)
      obtain rfl : g' = f' := by simpa [(List.getElem?_eq_some_iff.mp hi).1] using hi'
      obtain ⟨hno, hlast, error, rfl⟩ := entregaRespuesta_failed hact hq hf
      exact ⟨amb, error, rfl, hno, hlast, rfl⟩
    · exact absurd (by simpa [List.getElem?_set_ne hne] using hi) hmoved
  · exact absurd hi hmoved
  · rw [hsal, List.getElem?_append_left (List.getElem?_eq_some_iff.mp hi).1] at hmoved
    exact absurd hi hmoved

/-- So does an order. -/
theorem pedido_fallido {i : ℕ} {o o' : Orden}
    (hp : u.paso cfg repeatS a = some v) (hi : u.salida.ordenes[i]? = some o)
    (hq : o.enCola = true) (hi' : v.salida.ordenes[i]? = some o') (ho : o'.emailStatus = .failed) :
    ∃ toEmail error volcado,
      v.alertas = u.alertas.alert repeatS (.pedido o toEmail error volcado) := by
  have hmoved : v.salida.ordenes[i]? ≠ some o := by
    intro hkept
    obtain rfl : o = o' := Option.some.inj (hkept.symm.trans hi')
    simp [Orden.enCola, ho] at hq
  obtain ⟨j, amb, f, f', ws, -, -, -, rfl⟩ | ⟨j, amb, g, g', ws, rfl, hj, hact, rfl⟩ | ⟨fs, os, hsal⟩ :=
    paso_cases hp
  · exact absurd hi hmoved
  · rcases eq_or_ne j i with rfl | hne
    · obtain rfl : o = g := Option.some.inj (hi.symm.trans hj)
      obtain rfl : g' = o' := by simpa [(List.getElem?_eq_some_iff.mp hi).1] using hi'
      obtain ⟨toEmail, error, rfl⟩ := entregaOrden_failed hact ho
      exact ⟨toEmail, error, _, rfl⟩
    · exact absurd (by simpa [List.getElem?_set_ne hne] using hi) hmoved
  · rw [hsal, List.getElem?_append_left (List.getElem?_eq_some_iff.mp hi).1] at hmoved
    exact absurd hi hmoved

/-! ## The alerts of a run -/

/-- What `_last` says went out, and nothing went out later than now. -/
structure AlDia (s : Alertas) : Prop where
  last : ∀ key t, s.last key = some t → ∃ g, (t, g) ∈ s.emitidas ∧ g.key = key
  tiempos : ∀ t g, (t, g) ∈ s.emitidas → t ≤ s.reloj

theorem alDia_inicial : AlDia {} :=
  ⟨fun _ _ h => (nomatch h), fun _ _ h => (nomatch h)⟩

theorem alDia_alert (h : AlDia s) (l : Llamada) : AlDia (s.alert repeatS l) := by
  unfold Alertas.alert
  split
  · exact h
  refine ⟨fun key t hlast => ?_, fun t g hmem => ?_⟩
  · rcases eq_or_ne key l.key with rfl | hne
    · obtain rfl : s.reloj = t := by simpa using hlast
      exact ⟨l, List.mem_append_right _ (List.mem_singleton.mpr rfl), rfl⟩
    · obtain ⟨g, hg, hkey⟩ := h.last key t (by simpa [hne] using hlast)
      exact ⟨g, List.mem_append_left _ hg, hkey⟩
  · rcases List.mem_append.mp hmem with hmem | hmem
    · exact h.tiempos t g hmem
    · obtain ⟨rfl, -⟩ := Prod.mk.inj (List.mem_singleton.mp hmem)
      exact le_rfl

theorem emitidas_alert (l : Llamada) : s.emitidas <+: (s.alert repeatS l).emitidas := by
  unfold Alertas.alert
  split
  · exact List.prefix_rfl
  · exact List.prefix_append _ _

/-- What a call of `alert` and the passage of time keep is kept by every step. -/
theorem alertas_paso {I : Alertas → Prop} (hp : u.paso cfg repeatS a = some v) (h : I u.alertas)
    (hcall : ∀ s l, I s → I (s.alert repeatS l))
    (htime : ∀ s d, I s → I { s with reloj := s.reloj + d })
    (hnew : ∀ s, I s → I { s with last := fun _ => none }) : I v.alertas := by
  have hcalls (ws : List Llamada) : I (ws.foldl (Alertas.alert repeatS) u.alertas) :=
    List.foldlRecOn ws _ h fun s hs l _ => hcall s l hs
  cases a with
  | avanza d =>
    obtain rfl := Option.some.inj hp
    exact htime _ d h
  | turno k vuelta =>
    obtain rfl := Option.some.inj hp
    cases vuelta with
    | excepcion error => exact hcall _ _ h
    | hecha f o => exact h
  | respuesta i amb =>
    obtain ⟨f, -, rfl⟩ := Option.map_eq_some_iff.mp hp
    unfold Servicio.respuesta
    split
    · exact h
    · exact hcalls _
  | pedido i amb =>
    obtain ⟨o, -, rfl⟩ := Option.map_eq_some_iff.mp hp
    unfold Servicio.pedido
    split
    · exact h
    · exact hcalls _
  | llama l =>
    obtain rfl := Option.some.inj hp
    exact hcall _ l h
  | reinicia =>
    obtain rfl := Option.some.inj hp
    exact hnew _ h

theorem alDia_paso (hp : u.paso cfg repeatS a = some v) (h : AlDia u.alertas) : AlDia v.alertas := by
  refine alertas_paso hp h (fun s l hs => alDia_alert hs l) (fun s d hs => ?_) fun s hs => ?_
  · exact ⟨hs.last, fun t g hmem => (hs.tiempos t g hmem).trans (Nat.le_add_right _ _)⟩
  · exact ⟨fun key t hlast => (nomatch hlast), hs.tiempos⟩

theorem emitidas_paso (hp : u.paso cfg repeatS a = some v) :
    u.alertas.emitidas <+: v.alertas.emitidas :=
  alertas_paso (I := fun s => u.alertas.emitidas <+: s.emitidas) hp List.prefix_rfl
    (fun _ l hs => hs.trans (emitidas_alert l)) (fun _ _ hs => hs) fun _ hs => hs

/-- No alert that clashes with this call went out in the last repeat period. -/
def Alertas.despejada (repeatS : ℕ) (s : Alertas) (l : Llamada) : Bool :=
  s.emitidas.all fun e => !(l.choca e.2 && s.reloj < e.1 + repeatS)

/-- The text of the error does not matter. -/
theorem despejada_respuesta (k : Clave) (error : Texto) :
    s.despejada repeatS (.respuesta k error) = s.despejada repeatS (.respuesta k []) := by
  unfold Alertas.despejada
  congr 1
  funext e
  cases e.2 <;> rfl

/-- After a call some alert of the last repeat period is about the same client or order. -/
theorem alert_nombra {n : Texto} (h : AlDia s) (hc : s.despejada repeatS l = true)
    (hn : l.afectado = some n) :
    ∃ t g, (t, g) ∈ (s.alert repeatS l).emitidas ∧ t ≤ s.reloj ∧ s.reloj ≤ t + repeatS ∧
      g.afectado = some n := by
  unfold Alertas.alert
  split
  · next hs =>
    -- the call is silent: `_last` holds an alert of its key
    unfold Alertas.callada at hs
    split at hs
    · next t hlast =>
      have hlt : s.reloj < t + repeatS := of_decide_eq_true hs
      obtain ⟨g, hg, hkey⟩ := h.last _ t hlast
      have hno : l.choca g = false := by
        have hall := List.all_eq_true.mp hc (t, g) hg
        simpa [hlt] using hall
      exact ⟨t, g, hg, h.tiempos t g hg, hlt.le, Llamada.afectado_of_key hkey hn hno⟩
    · cases hs
  · exact ⟨s.reloj, l, List.mem_append_right _ (List.mem_singleton.mpr rfl), le_rfl,
      Nat.le_add_right _ _, hn⟩

/-! ## Runs -/

/-- Whoever a step of the run has left without an answer, a repeat period ago, is named by
an alert that went out within a repeat period of it. -/
def Reported (cfg : Config) (repeatS : ℕ) (acts : List Suceso) (w : Servicio) : Prop :=
  ∀ xs a ys u v n, acts = xs ++ a :: ys → run (Servicio.paso cfg repeatS) {} xs = some u →
    u.paso cfg repeatS a = some v → SinAtender u a v n → u.alertas.reloj + repeatS < w.alertas.reloj →
    ∃ t g, (t, g) ∈ w.alertas.emitidas ∧ t ≤ u.alertas.reloj + repeatS ∧
      u.alertas.reloj ≤ t + repeatS ∧ n <:+: g.text

/-- When a turn raises or the last try of a reply is refused, no alert of that kind for
another client of the same salesman and channel went out in the last repeat period. -/
def sinSolape (cfg : Config) (repeatS : ℕ) (u : Servicio) : Suceso → Bool
  | .turno k (.excepcion error) => u.alertas.despejada repeatS (.turno k error)
  | .respuesta i amb => u.salida.respuestas[i]?.all fun f =>
    !(amb.rehusa f && cfg.sendAttempts ≤ f.attempts + 1) ||
      u.alertas.despejada repeatS (.respuesta f.clave [])
  | _ => true

/-- A step that leaves somebody without an answer leaves an alert about them. -/
theorem sinAtender_nombrado {n : Texto} (h : AlDia u.alertas)
    (hc : sinSolape cfg repeatS u a = true) (hp : u.paso cfg repeatS a = some v)
    (hn : SinAtender u a v n) :
    ∃ t g, (t, g) ∈ v.alertas.emitidas ∧ t ≤ u.alertas.reloj ∧ u.alertas.reloj ≤ t + repeatS ∧
      g.afectado = some n := by
  cases hn with
  | turno k error =>
    obtain rfl := Option.some.inj hp
    exact alert_nombra h hc rfl
  | @respuesta _ _ i f f' hi hq hi' hf =>
    obtain ⟨amb, error, rfl, hno, hlast, hv⟩ := respuesta_fallida hp hi hq hi' hf
    have hfree : u.alertas.despejada repeatS (.respuesta f.clave error) = true := by
      rw [despejada_respuesta]
      simpa [sinSolape, hi, hno, hlast] using hc
    rw [hv]
    exact alert_nombra h hfree rfl
  | @pedido _ _ i o o' hi hq hi' ho =>
    obtain ⟨toEmail, error, volcado, hv⟩ := pedido_fallido hp hi hq hi' ho
    have hfree : u.alertas.despejada repeatS (.pedido o toEmail error volcado) = true :=
      List.all_eq_true.mpr fun _ _ => rfl
    rw [hv]
    exact alert_nombra h hfree rfl

/-- In every run in which no two clients of one salesman clash inside a repeat period,
whoever is left without an answer is reported. -/
theorem unanswered_reported {acts : List Suceso} {w : Servicio}
    (h : replay (Servicio.paso cfg repeatS) (sinSolape cfg repeatS) {} acts = some w) :
    Reported cfg repeatS acts w := by
  intro xs a ys u v n hacts hu hp hn _
  rw [hacts] at h
  obtain ⟨u', hu', hrest⟩ := replay_append_eq_some.mp h
  obtain rfl : u = u' := Option.some.inj (hu.symm.trans (run_of_replay hu'))
  obtain ⟨v', hc, hv', hw⟩ := replay_cons_eq_some.mp hrest
  obtain rfl : v = v' := Option.some.inj (hp.symm.trans hv')
  have hday : AlDia u.alertas :=
    run_invariant (I := fun s => AlDia s.alertas) hu alDia_inicial fun _ _ _ _ => alDia_paso
  obtain ⟨t, g, hg, hle, hwin, hgn⟩ := sinAtender_nombrado hday hc hp hn
  have hmono : v.alertas.emitidas <+: w.alertas.emitidas :=
    run_invariant (I := fun s => v.alertas.emitidas <+: s.alertas.emitidas) (run_of_replay hw)
      List.prefix_rfl fun _ _ _ _ hs hi => hi.trans (emitidas_paso hs)
  exact ⟨t, g, hmono.subset hg, hle.trans (Nat.le_add_right _ _), hwin, Llamada.afectado_text hgn⟩

/-- Two clients of one salesman, a reply queued for either, and an order. -/
def clienteUno : Clave := ⟨.whatsapp, "600111222", "600999888"⟩
def clienteDos : Clave := ⟨.whatsapp, "600333444", "600999888"⟩

def respuestaA (id : ℕ) (k : Clave) : Conversation.Fila where
  id := id
  clave := k
  message := "Anotado."
  direction := .sent
  isBot := true
  timestamp := 0
  status := .queued

/-- No transport can reach anybody. -/
def todoMal : Ambiente :=
  { todoBien with send := fun _ _ => .fallo "timeout" }

/-- A client's turn fails at every loop until it leaves a reply, which is given up at its
third try; an hour later another client's turn fails, and the order that the next one
closes is given up too. -/
def runApart : List Suceso :=
  [.turno clienteUno (.excepcion "RuntimeError()"), .avanza 30,
    .turno clienteUno (.excepcion "RuntimeError()"), .avanza 30,
    .turno clienteUno (.hecha (some (respuestaA 1 clienteUno)) none),
    .respuesta 0 todoMal, .avanza 30, .respuesta 0 todoMal, .avanza 30, .respuesta 0 todoMal,
    .avanza 3600, .turno clienteDos (.excepcion "RuntimeError()"), .avanza 30,
    .turno clienteDos (.hecha none (some (ordenDe 1 "rimel azul"))),
    .pedido 0 todoMal, .avanza 30, .pedido 0 todoMal, .avanza 30, .pedido 0 todoMal, .avanza 3601]

theorem unanswered_reported_of_runApart :
    ∃ w, replay (Servicio.paso (.porDefecto .latin) 3600) (sinSolape (.porDefecto .latin) 3600) {}
        runApart = some w ∧
      w.salida.respuestas.map (·.status) = [.failed] ∧
      w.salida.ordenes.map (·.emailStatus) = [.failed] ∧
      w.alertas.emitidas.map Prod.fst = [0, 120, 3720, 3810] ∧
      Reported (.porDefecto .latin) 3600 runApart w := by
  refine ⟨(replay (Servicio.paso (.porDefecto .latin) 3600) (sinSolape (.porDefecto .latin) 3600) {}
    runApart).get (by decide), by simp, by decide, by decide, by decide, ?_⟩
  exact unanswered_reported (Option.some_get _).symm

/-- Replies to both clients are queued, and each is given up at its third try, ten seconds
apart. -/
def runTogether : List Suceso :=
  [.turno clienteUno (.hecha (some (respuestaA 1 clienteUno)) none),
    .turno clienteDos (.hecha (some (respuestaA 2 clienteDos)) none),
    .respuesta 0 todoMal, .avanza 10, .respuesta 1 todoMal, .avanza 20,
    .respuesta 0 todoMal, .avanza 10, .respuesta 1 todoMal, .avanza 20,
    .respuesta 0 todoMal, .avanza 10]

theorem together_runs :
    ∃ u v w, run (Servicio.paso (.porDefecto .latin) 3600) {} runTogether = some u ∧
      u.paso (.porDefecto .latin) 3600 (.respuesta 1 todoMal) = some v ∧
      v.paso (.porDefecto .latin) 3600 (.avanza 3601) = some w ∧
      SinAtender u (.respuesta 1 todoMal) v clienteDos.clientId ∧
      u.alertas.reloj + 3600 < w.alertas.reloj ∧
      w.alertas.emitidas = [(60, .respuesta clienteUno "timeout")] := by
  refine ⟨(run (Servicio.paso (.porDefecto .latin) 3600) {} runTogether).get (by decide), _, _,
    by simp, rfl, rfl, ?_, by decide, by decide⟩
  exact @SinAtender.respuesta _ _ _ 1 { respuestaA 2 clienteDos with attempts := 2 }
    { respuestaA 2 clienteDos with status := .failed, attempts := 3 }
    (by decide) (by decide) (by decide) (by decide)

/-- No alert ever names the second client. -/
theorem second_client_unreported :
    ¬ ∀ acts w, run (Servicio.paso (.porDefecto .latin) 3600) {} acts = some w →
      Reported (.porDefecto .latin) 3600 acts w := by
  intro h
  obtain ⟨u, v, w, hu, hv, hw, hn, hreloj, hout⟩ := together_runs
  have hrun : run (Servicio.paso (.porDefecto .latin) 3600) {}
      (runTogether ++ [.respuesta 1 todoMal, .avanza 3601]) = some w := by
    refine run_append_eq_some.mpr ⟨u, hu, run_cons_eq_some.mpr ⟨v, hv, ?_⟩⟩
    exact run_cons_eq_some.mpr ⟨w, hw, rfl⟩
  obtain ⟨t, g, hg, -, -, hin⟩ := h _ w hrun runTogether _ _ u v _ rfl hu hv hn hreloj
  rw [hout] at hg
  obtain ⟨rfl, rfl⟩ := Prod.mk.inj (List.mem_singleton.mp hg)
  have hno : ¬ clienteDos.clientId <:+: (Llamada.respuesta clienteUno "timeout").text := by
    decide +kernel
  exact hno hin

end Chatlink.Delivery
