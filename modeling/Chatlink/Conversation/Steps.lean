import Chatlink.Conversation.System
import Chatlink.Lib.Lists

/-!
# What one step of the system can do

`Paso` lists the effects of a step: a task of the ingest moves on, the loop moves on
without writing, or one of its transactions commits. Invariants of runs are proved by
cases on it and never unfold the step function.
-/
namespace Chatlink.Conversation

variable {cfg : Config} {s s' : Sistema} {a : Accion}

namespace Bucle

/-- The turn in progress: its tick, what it read and the turns after it. -/
def enCurso : Bucle → Option (Consulta × Lectura × List Clave)
  | leido q l ks => some (q, l, ks)
  | agente q l ks => some (q, l, ks)
  | comprobado q l _ _ ks => some (q, l, ks)
  | _ => none

/-- The turns still to run once the present one ends. -/
def restantes : Bucle → Option (Consulta × List Clave)
  | turnos q (_ :: ks) => some (q, ks)
  | leido q _ ks => some (q, ks)
  | agente q _ ks => some (q, ks)
  | comprobado q _ _ _ ks => some (q, ks)
  | _ => none

end Bucle

/-- The moves of the loop that write nothing. -/
inductive Avance (cfg : Config) (s : Sistema) : Accion → Bucle → Prop
  | tick {ks} (hb : s.bucle = .reposo) (hks : ks.Perm (s.dueConversations cfg)) :
      Avance cfg s (.tick ks) (.turnos ⟨s.reloj, s.filas.length⟩ ks)
  | sigue {a : Accion} {q ks} (hb : s.bucle.restantes = some (q, ks)) : Avance cfg s a (.turnos q ks)
  | lee {q k ks} (enabled : Bool) (hb : s.bucle = .turnos q (k :: ks))
      (hp : (s.lectura cfg k enabled).pending ≠ []) :
      Avance cfg s (.lee enabled) (.leido q (s.lectura cfg k enabled) ks)
  | criba {a : Accion} {q l ks} (x : Sesion) (hb : s.bucle = .leido q l ks) :
      Avance cfg s a (.agente q { l with sesion := x } ks)
  | comprueba {q l ks} (reply : Texto) (optOut : Bool) (hb : s.bucle = .agente q l ks)
      (hn : s.newer l.clave ≤ l.lastSalesmanId) :
      Avance cfg s (.comprueba reply optOut) (.comprobado q l reply optOut ks)
  | carga {a : Accion} (c : Canal) : Avance cfg s a (.enviando c (s.cola c))
  | entrega {a : Accion} {c row rows} (hb : s.bucle = .enviando c (row :: rows)) :
      Avance cfg s a (.entregado c row rows)
  | reposo {a : Accion} : Avance cfg s a .reposo

/-- Every effect of a step. -/
inductive Paso (cfg : Config) (s : Sistema) : Accion → Sistema → Prop
  | reloj {a : Accion} (d : ℕ) : Paso cfg s a { s with reloj := s.reloj + d }
  | llega (k : Clave) (d : Direction) : Paso cfg s (.llega k d)
      { s with
        tareas := s.tareas ++ [{ llegada := s.llegadas, clave := k, direction := d }]
        llegadas := s.llegadas + 1 }
  | quita {a : Accion} (i : ℕ) : Paso cfg s a { s with tareas := s.tareas.eraseIdx i }
  | prepara {i t} (message : Texto) (ht : s.tareas[i]? = some t) (hf : t.fase = .espera) :
      Paso cfg s (.prepara i message)
        { s with tareas := s.tareas.set i { t with fase := .preparada message s.reloj } }
  | inserta {i t message ts} (ht : s.tareas[i]? = some t) (hf : t.fase = .preparada message ts) :
      Paso cfg s (.inserta i)
        { s with
          tareas := s.tareas.set i
            { t with fase := .insertada message ts (s.siguiente t.clave.canal) }
          siguiente := Function.update s.siguiente t.clave.canal (s.siguiente t.clave.canal + 1) }
  | confirma {i t message ts id} (ht : s.tareas[i]? = some t)
      (hf : t.fase = .insertada message ts id) :
      Paso cfg s (.confirma i)
        { s with
          tareas := s.tareas.eraseIdx i
          filas := s.filas ++ [t.fila message ts id] }
  | avanza {a : Accion} {b : Bucle} (h : Avance cfg s a b) : Paso cfg s a { s with bucle := b }
  | done {a : Accion} {q l ks} (x : Sesion) (fin : Fin) (hb : s.bucle.enCurso = some (q, l, ks)) :
      Paso cfg s a (s.done q { l with sesion := x } ks fin)
  | responde {q l reply optOut ks} (x : Sesion) (hb : s.bucle = .comprobado q l reply optOut ks)
      (hr : reply.isEmpty = false) :
      Paso cfg s .escribe
        { s.done q { l with sesion := x } ks .contestado with
          filas := s.filas ++ [s.filaRespuesta l reply]
          siguiente := Function.update s.siguiente l.clave.canal (s.siguiente l.clave.canal + 1) }
  | anota {c row rows} (ok : Bool) (hb : s.bucle = .entregado c row rows) :
      Paso cfg s (.anota ok)
        { s with
          filas := s.filas.map fun f =>
            if f.clave.canal = c ∧ f.id = row.id then f.trasEnvio cfg ok else f
          bucle := .enviando c rows }
  | reinicia : Paso cfg s .reinicia { s with tareas := [], bucle := .reposo }

theorem pasoTarea_cases (h : pasoTarea cfg s a = some s') : Paso cfg s a s' := by
  cases a with
  | llega k d =>
    obtain rfl := Option.some.inj h
    exact .llega k d
  | abandona i =>
    simp only [pasoTarea] at h
    split at h
    · obtain rfl := Option.some.inj h
      exact .quita i
    · cases h
  | prepara i message =>
    simp only [pasoTarea] at h
    split at h
    · next t ht =>
      split at h
      · next hf =>
        split at h
        · obtain rfl := Option.some.inj h
          exact .quita i
        · obtain rfl := Option.some.inj h
          exact .prepara message ht hf
      · cases h
    · cases h
  | inserta i =>
    simp only [pasoTarea] at h
    split at h
    · next t ht =>
      split at h
      · next message ts hf =>
        obtain rfl := Option.some.inj h
        exact .inserta ht hf
      · cases h
    · cases h
  | confirma i =>
    simp only [pasoTarea] at h
    split at h
    · next t ht =>
      split at h
      · next message ts id hf =>
        obtain rfl := Option.some.inj h
        exact .confirma ht hf
      · cases h
    · cases h
  | _ => cases h

/-- A turn that answers commits as `done` does, and then adds its reply if it has one. -/
theorem commit_cases (q : Consulta) (l : Lectura) (reply : Texto) (optOut : Bool) (ks : List Clave) :
    ∃ x : Sesion,
      s.commit q l reply optOut ks = s.done q { l with sesion := x } ks .contestado ∨
      reply.isEmpty = false ∧ s.commit q l reply optOut ks =
        { s.done q { l with sesion := x } ks .contestado with
          filas := s.filas ++ [s.filaRespuesta l reply]
          siguiente := Function.update s.siguiente l.clave.canal
            (s.siguiente l.clave.canal + 1) } := by
  refine ⟨{ l.sesion with botEnabled := if optOut then false else l.sesion.botEnabled }, ?_⟩
  cases h : List.isEmpty reply with
  | true => exact Or.inl (by simp [Sistema.commit, h])
  | false => exact Or.inr ⟨rfl, by simp [Sistema.commit, h]⟩

theorem pasoTurno_cases (h : pasoTurno cfg s a = some s') : Paso cfg s a s' := by
  cases a with
  | lee enabled =>
    simp only [pasoTurno] at h
    split at h
    · next q k ks hb =>
      split at h
      · obtain rfl := Option.some.inj h
        exact .avanza (.sigue (by rw [hb]; rfl))
      · next hp =>
        obtain rfl := Option.some.inj h
        exact .avanza (.lee enabled hb (by simpa using hp))
    · cases h
  | criba found =>
    simp only [pasoTurno] at h
    split at h
    · next q l ks hb =>
      have hc : s.bucle.enCurso = some (q, l, ks) := by rw [hb]; rfl
      split at h
      · obtain rfl := Option.some.inj h
        exact .done l.sesion .deshabilitado hc
      · split at h
        · obtain rfl := Option.some.inj h
          exact .done l.sesion .nadaQueContestar hc
        · split at h
          · obtain rfl := Option.some.inj h
            exact .done l.sesion .optOut hc
          · split at h
            · obtain rfl := Option.some.inj h
              exact .done _ .noEsCliente hc
            · obtain rfl := Option.some.inj h
              exact .avanza (.criba _ hb)
    · cases h
  | comprueba reply optOut =>
    simp only [pasoTurno] at h
    split at h
    · next q l ks hb =>
      split at h
      · obtain rfl := Option.some.inj h
        exact .done l.sesion .comercialContesto (by rw [hb]; rfl)
      · next hn =>
        obtain rfl := Option.some.inj h
        exact .avanza (.comprueba reply optOut hb (Nat.le_of_not_lt hn))
    · cases h
  | escribe =>
    simp only [pasoTurno] at h
    split at h
    · next q l reply optOut ks hb =>
      obtain rfl := Option.some.inj h
      obtain ⟨x, hx | ⟨hr, hx⟩⟩ := commit_cases (s := s) q l reply optOut ks
      · rw [hx]
        exact .done x .contestado (by rw [hb]; rfl)
      · rw [hx]
        exact .responde x hb hr
    · cases h
  | _ => cases h

theorem pasoBucle_cases (h : pasoBucle cfg s a = some s') : Paso cfg s a s' := by
  cases a with
  | tick ks =>
    simp only [pasoBucle] at h
    split at h
    · next hb =>
      split at h
      · next hks =>
        obtain rfl := Option.some.inj h
        exact .avanza (.tick hb hks)
      · cases h
    · cases h
  | falla =>
    simp only [pasoBucle] at h
    split at h
    all_goals first
      | cases h; done
      | obtain rfl := Option.some.inj h; exact .avanza .reposo
      | obtain rfl := Option.some.inj h; exact .avanza (.sigue (by simp [*, Bucle.restantes]))
  | carga =>
    simp only [pasoBucle] at h
    split at h
    · obtain rfl := Option.some.inj h
      exact .avanza (.carga .whatsapp)
    · obtain rfl := Option.some.inj h
      exact .avanza (.carga .email)
    · cases h
  | entrega =>
    simp only [pasoBucle] at h
    split at h
    · next c row rows hb =>
      obtain rfl := Option.some.inj h
      exact .avanza (.entrega hb)
    · cases h
  | anota ok =>
    simp only [pasoBucle] at h
    split at h
    · next c row rows hb =>
      obtain rfl := Option.some.inj h
      exact .anota ok hb
    · cases h
  | duerme =>
    simp only [pasoBucle] at h
    split at h
    · obtain rfl := Option.some.inj h
      exact .avanza .reposo
    · cases h
  | _ => cases h

/-- The step lemma of the system. -/
theorem paso_cases (h : paso cfg s a = some s') : Paso cfg s a s' := by
  unfold paso at h
  split at h
  · next d =>
    obtain rfl := Option.some.inj h
    exact .reloj d
  · obtain rfl := Option.some.inj h
    exact .reinicia
  · rcases Option.or_eq_some_iff.mp h with h | ⟨-, h⟩
    · exact pasoTarea_cases h
    · rcases Option.or_eq_some_iff.mp h with h | ⟨-, h⟩
      · exact pasoTurno_cases h
      · exact pasoBucle_cases h

/-! ## What a turn reads -/

theorem le_maximo {xs : List ℕ} {n : ℕ} (h : n ∈ xs) : n ≤ maximo xs := by
  induction xs with
  | nil => exact absurd h List.not_mem_nil
  | cons x xs ih =>
    rcases List.mem_cons.mp h with rfl | h
    · exact le_max_left _ _
    · exact (ih h).trans (le_max_right _ _)

theorem maximo_mem {xs : List ℕ} (h : xs ≠ []) : maximo xs ∈ xs := by
  induction xs with
  | nil => exact absurd rfl h
  | cons x xs ih =>
    by_cases hx : xs = []
    · simp [hx, maximo]
    · change max x (maximo xs) ∈ x :: xs
      rcases max_choice x (maximo xs) with hm | hm
      · exact List.mem_cons.mpr (Or.inl hm)
      · rw [hm]
        exact List.mem_cons_of_mem _ (ih hx)

theorem maximo_le {xs : List ℕ} {n : ℕ} (h : ∀ x ∈ xs, x ≤ n) : maximo xs ≤ n := by
  by_cases hx : xs = []
  · simp [hx, maximo]
  · exact h _ (maximo_mem hx)

theorem mem_conversacion {k : Clave} {f : Fila} :
    f ∈ s.conversacion k ↔ f ∈ s.filas ∧ f.clave = k := by
  simp [Sistema.conversacion]

section History

variable {k : Clave} {f : Fila}

theorem pairwise_sorted_desc (xs : List Fila) :
    (xs.insertionSort fun a b => b.id ≤ a.id).Pairwise fun a b => b.id ≤ a.id := by
  have : Std.Total fun a b : Fila => b.id ≤ a.id := ⟨fun a b => Nat.le_total b.id a.id⟩
  have : IsTrans Fila fun a b => b.id ≤ a.id := ⟨fun _ _ _ hab hbc => Nat.le_trans hbc hab⟩
  exact List.pairwise_insertionSort (fun a b : Fila => b.id ≤ a.id) xs

theorem mem_of_mem_loadHistory (h : f ∈ s.loadHistory cfg k) : f ∈ s.conversacion k := by
  have h' := List.mem_of_mem_take (List.mem_reverse.mp h)
  exact (List.mem_insertionSort _).mp h'

/-- The window of the history holds whatever is newer than one of its rows. -/
theorem mem_loadHistory_of_lt {g : Fila} (hf : f ∈ s.loadHistory cfg k) (hg : g ∈ s.conversacion k)
    (hlt : f.id < g.id) : g ∈ s.loadHistory cfg k := by
  refine List.mem_reverse.mpr (Lists.mem_take_of_pairwise (pairwise_sorted_desc _)
    (List.mem_reverse.mp hf) ((List.mem_insertionSort _).mpr hg) ?_)
  exact Nat.not_le.mpr hlt

variable {enabled : Bool}

theorem mem_pending : f ∈ (s.lectura cfg k enabled).pending ↔
    f ∈ s.loadHistory cfg k ∧ f.clientMsg ∧ (s.sesiones k).lastAnsweredId < f.id ∧
      (s.lectura cfg k enabled).lastSalesmanId < f.id := by
  simp [Sistema.lectura, List.mem_filter]

theorem le_lastSalesmanId (hf : f ∈ s.loadHistory cfg k) (hs : f.salesmanMsg) :
    f.id ≤ (s.lectura cfg k enabled).lastSalesmanId :=
  le_maximo (List.mem_map_of_mem (List.mem_filter.mpr ⟨hf, hs⟩))

theorem le_newer (hf : f ∈ s.filas) (hk : f.clave = k) (hs : f.salesmanMsg) : f.id ≤ s.newer k :=
  le_maximo (List.mem_map_of_mem (List.mem_filter.mpr ⟨mem_conversacion.mpr ⟨hf, hk⟩, hs⟩))

/-- The window shows no message of the salesman that the table does not have. -/
theorem lastSalesmanId_le_newer : (s.lectura cfg k enabled).lastSalesmanId ≤ s.newer k := by
  refine maximo_le fun n hn => ?_
  obtain ⟨f, hf, rfl⟩ := List.mem_map.mp hn
  obtain ⟨hh, hs⟩ := List.mem_filter.mp hf
  obtain ⟨hfm, hk⟩ := mem_conversacion.mp (mem_of_mem_loadHistory hh)
  exact le_newer hfm hk hs

/-- The newest pending message, when something is pending. -/
theorem newestId_mem (h : (s.lectura cfg k enabled).pending ≠ []) :
    ∃ m ∈ (s.lectura cfg k enabled).pending, m.id = (s.lectura cfg k enabled).newestId := by
  refine ⟨(s.lectura cfg k enabled).pending.getLast h, List.getLast_mem h, ?_⟩
  change _ = ((s.lectura cfg k enabled).pending.getLast?.map Fila.id).getD 0
  rw [List.getLast?_eq_some_getLast h]
  rfl

end History

/-! ## The cursor of a finished turn -/

section Done

variable (q : Consulta) (l : Lectura) (ks : List Clave) (fin : Fin)

theorem done_sesion_of_ne {k : Clave} (hk : k ≠ l.clave) :
    (s.done q l ks fin).sesiones k = s.sesiones k := Function.update_of_ne hk _ _

theorem done_lastAnsweredId :
    ((s.done q l ks fin).sesiones l.clave).lastAnsweredId = l.newestId := by
  simp [Sistema.done]

end Done

/-- An attempt to deliver a row touches the status and the attempts of rows, and queues none. -/
theorem mem_trasEnvio {filas : List Fila} {ok : Bool} {p : Fila → Prop} [DecidablePred p] {f : Fila}
    (hf : f ∈ filas.map fun f => if p f then f.trasEnvio cfg ok else f) :
    ∃ g ∈ filas, ∃ status attempts, f = { g with status := status, attempts := attempts } ∧
      (f.enCola → g.enCola) := by
  obtain ⟨g, hg, rfl⟩ := List.mem_map.mp hf
  refine ⟨g, hg, ?_⟩
  split
  · refine ⟨_, _, rfl, fun hq => ?_⟩
    obtain ⟨hbot, hst⟩ := Bool.and_eq_true_iff.mp hq
    refine Bool.and_eq_true_iff.mpr ⟨hbot, ?_⟩
    unfold Fila.trasEnvio at hst
    dsimp only at hst
    split at hst
    · cases hst
    · split at hst
      · cases hst
      · exact hst
  · exact ⟨g.status, g.attempts, rfl, id⟩

theorem le_update_succ (f : Canal → ℕ) (c d : Canal) :
    f d ≤ Function.update f c (f c + 1) d := by
  by_cases hd : d = c
  · subst hd
    simp
  · simp [Function.update_of_ne hd]

end Chatlink.Conversation
