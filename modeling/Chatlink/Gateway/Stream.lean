import Chatlink.Conversation.Arrivals

/-!
# From the gateway to the messages table

The gateway broadcasts every message it gets to whoever listens at that moment and keeps
nothing. The bot listens on one stream, which breaks and is opened again; each event it
reads starts a task that stores the message, unless the table already has the same text
of the same conversation from the last seconds. Nothing that travels says which message
an event is: the number of a message and the list of the messages read are not data of
the program, they only let us say what happened to each message.

The messages are those of enabled salesmen with clients of SAGE, so a task gives up only when its
handler raises: the event bus logs the error and the message is gone.
-/
namespace Chatlink.Gateway

open Lists Transition
open Conversation (Clave Direction Fila Tarea Sistema Accion Config Oido paso pasoTarea pasoTurno
  pasoBucle)

/-- A message that reaches the gateway; the text of one that carries media is read by a
model. -/
structure Mensaje where
  id : ℕ
  clave : Clave
  direction : Direction
  texto : Option Texto
  deriving DecidableEq, Repr

/-- `llegados` reached the gateway, `enVuelo` are on the stream, `origen` is the message of
each event the bot has read, by the place the event has in its task, and `tirados` were
dropped as duplicates. -/
structure Ingesta where
  base : Sistema := Conversation.inicial
  conectado : Bool := false
  llegados : List Mensaje := []
  enVuelo : List Mensaje := []
  origen : List Mensaje := []
  tirados : List ℕ := []

inductive AccionIngesta where
  | conecta
  | desconecta
  | llega (m : Mensaje)
  /-- WhatsApp delivers a message again. -/
  | reentrega (m : Mensaje)
  | recibe
  | sistema (a : Accion)
  deriving DecidableEq, Repr

/-- `broadcastEvent`. -/
def Ingesta.broadcastEvent (s : Ingesta) (m : Mensaje) : Ingesta :=
  if s.conectado then { s with enVuelo := s.enVuelo ++ [m] } else s

def pasoIngesta (cfg : Config) (s : Ingesta) : AccionIngesta → Option Ingesta
  | .conecta => some { s with conectado := true }
  | .desconecta => some { s with conectado := false, enVuelo := [] }
  | .llega m =>
    if m.id ∈ s.llegados.map Mensaje.id then none
    else some ({ s with llegados := s.llegados ++ [m] }.broadcastEvent m)
  | .reentrega m => if m ∈ s.llegados then some (s.broadcastEvent m) else none
  | .recibe =>
    match s.enVuelo with
    | [] => none
    | m :: ms =>
      (paso cfg s.base (.llega m.clave m.direction)).map fun b =>
        { s with base := b, enVuelo := ms, origen := s.origen ++ [m] }
  | .sistema (.llega _ _) => none
  | .sistema .reinicia =>
    (paso cfg s.base .reinicia).map fun b =>
      { s with base := b, conectado := false, enVuelo := [] }
  | .sistema (.prepara i text) =>
    match s.base.tareas[i]? with
    | none => none
    | some t =>
      match s.origen[t.llegada]? with
      | none => none
      | some m =>
        if m.texto.all fun u => u = text then
          (paso cfg s.base (.prepara i text)).map fun b =>
            { s with
              base := b
              tirados := if s.base.duplicada cfg t text then s.tirados ++ [m.id] else s.tirados }
        else none
  | .sistema a => (paso cfg s.base a).map fun b => { s with base := b }

/-! ## What is stored -/

/-- The place of a stored message; the bot's own rows have none. -/
def lugar? (f : Fila) : Option ℕ := if f.isBot then none else some f.llegada

/-- The place of a task that has passed the check. -/
def enMarcha? (t : Tarea) : Option ℕ := if t.fase = .espera then none else some t.llegada

/-- The places that are stored, and those stored or about to be. -/
def lugares (b : Sistema) : List ℕ := b.filas.filterMap lugar?

def puestos (b : Sistema) : List ℕ := lugares b ++ b.tareas.filterMap enMarcha?

/-- The number of the message at a place. -/
def numeroEn (origen : List Mensaje) (l : ℕ) : Option ℕ := (origen[l]?).map Mensaje.id

namespace Ingesta

def almacenados (s : Ingesta) : List ℕ := (lugares s.base).filterMap (numeroEn s.origen)

def guardados (s : Ingesta) : List ℕ := (puestos s.base).filterMap (numeroEn s.origen)

/-- The steps between here and the table. -/
def porHacer (s : Ingesta) : ℕ :=
  4 * s.enVuelo.length + (s.base.tareas.map fun t => match t.fase with
    | .espera => 3
    | .preparada _ _ => 2
    | .insertada _ _ _ => 1).sum

end Ingesta

/-- The row carries the conversation of the message, its direction, and its text if it came with
one. -/
def Lleva (f : Fila) (m : Mensaje) : Prop :=
  f.clave = m.clave ∧ f.direction = m.direction ∧ ∀ u ∈ m.texto, u = f.message

/-- Every row is of a message that reached the gateway, and nothing is stored twice; what is on its
way can go on, and when nothing is left every message is stored; and what was dropped is stored. -/
structure StoredOnce (cfg : Config) (s : Ingesta) : Prop where
  faithful : ∀ f ∈ s.base.filas, f.isBot = false →
    ∃ m ∈ s.llegados, s.origen[f.llegada]? = some m ∧ Lleva f m
  atMostOnce : s.almacenados.Nodup
  progress : s.enVuelo ≠ [] ∨ s.base.tareas ≠ [] →
    ∃ a s', pasoIngesta cfg s a = some s' ∧ s'.porHacer < s.porHacer
  noLoss : s.enVuelo = [] → s.base.tareas = [] → ∀ m ∈ s.llegados, m.id ∈ s.almacenados
  dropped : s.base.tareas = [] → ∀ n ∈ s.tirados, n ∈ s.almacenados

/-- The query of the duplicate check finds the row. -/
def coincide (cfg : Config) (b : Sistema) (t : Tarea) (text : Texto) (f : Fila) : Bool :=
  f.direction = t.direction && f.message = text &&
    b.reloj ≤ f.timestamp + cfg.dedupe t.clave.canal

namespace Ingesta

/-- Text and time tell the message `n` of a waiting task: the rows the query finds are rows of this
message, a row of this message has the same text and is as recent as the query wants, and no task
that has passed the check is storing it. -/
def distingue (cfg : Config) (s : Ingesta) (t : Tarea) (text : Texto) (n : ℕ) : Bool :=
  ((s.base.conversacion t.clave).all fun f =>
    !coincide cfg s.base t text f || (!f.isBot && numeroEn s.origen f.llegada = some n)) &&
  (s.base.filas.all fun f => f.isBot || numeroEn s.origen f.llegada ≠ some n ||
    (f.message = text && s.base.reloj ≤ f.timestamp + cfg.dedupe t.clave.canal)) &&
  s.base.tareas.all fun u => u.fase = .espera || numeroEn s.origen u.llegada ≠ some n

/-- Without its task the message `n` is still on the stream, with another task, or stored. -/
def sigue (s : Ingesta) (i n : ℕ) : Bool :=
  (s.enVuelo.map Mensaje.id).contains n ||
    ((s.base.tareas.eraseIdx i).any fun u => numeroEn s.origen u.llegada = some n) ||
    s.almacenados.contains n

end Ingesta

/-- Messages arrive while the bot listens, the stream breaks when it is empty, the process
stops when no task runs, a handler raises only when the message is also elsewhere, and text and
time tell every message that is checked. -/
def sinPerdida (cfg : Config) (s : Ingesta) : AccionIngesta → Bool
  | .llega _ => s.conectado
  | .desconecta => s.enVuelo.isEmpty
  | .sistema .reinicia => s.enVuelo.isEmpty && s.base.tareas.isEmpty
  | .sistema (.abandona i) =>
    match s.base.tareas[i]? with
    | none => true
    | some t => (numeroEn s.origen t.llegada).all (s.sigue i)
  | .sistema (.prepara i text) =>
    match s.base.tareas[i]? with
    | none => true
    | some t => (numeroEn s.origen t.llegada).all (s.distingue cfg t text)
  | _ => true

/-! ## What the rest of the system leaves alone -/

section Base

variable {cfg : Config} {b b' : Sistema} {a : Accion}

/-- A step that stores no message and touches no task. -/
structure Ajeno (b b' : Sistema) : Prop where
  tareas : b'.tareas = b.tareas
  llegadas : b'.llegadas = b.llegadas
  lugares : lugares b' = lugares b

theorem ajeno_done (q : Conversation.Consulta) (l : Conversation.Lectura) (ks : List Clave)
    (fin : Conversation.Fin) : Ajeno b (b.done q l ks fin) := ⟨rfl, rfl, rfl⟩

theorem ajeno_bucle (x : Conversation.Bucle) : Ajeno b { b with bucle := x } := ⟨rfl, rfl, rfl⟩

theorem ajeno_commit (q : Conversation.Consulta) (l : Conversation.Lectura) (reply : Texto)
    (optOut : Bool) (ks : List Clave) : Ajeno b (b.commit q l reply optOut ks) := by
  unfold Sistema.commit
  dsimp only
  split
  · exact ajeno_done ..
  · exact ⟨rfl, rfl, filterMap_append_of_none rfl _⟩

theorem pasoTurno_ajeno (h : pasoTurno cfg b a = some b') : Ajeno b b' := by
  cases a with
  | lee enabled =>
    simp only [pasoTurno] at h
    split at h
    · split at h <;> cases h <;> exact ajeno_bucle _
    · cases h
  | criba found =>
    simp only [pasoTurno] at h
    split at h
    · split at h
      · cases h
        exact ajeno_done ..
      · split at h
        · cases h
          exact ajeno_done ..
        · split at h
          · cases h
            exact ajeno_done ..
          · split at h
            · cases h
              exact ajeno_done ..
            · cases h
              exact ajeno_bucle _
    · cases h
  | comprueba reply optOut =>
    simp only [pasoTurno] at h
    split at h
    · split at h
      · cases h
        exact ajeno_done ..
      · cases h
        exact ajeno_bucle _
    · cases h
  | escribe =>
    simp only [pasoTurno] at h
    split at h
    · cases h
      exact ajeno_commit ..
    · cases h
  | _ => cases h

theorem pasoBucle_ajeno (h : pasoBucle cfg b a = some b') : Ajeno b b' := by
  cases a with
  | anota ok =>
    simp only [pasoBucle] at h
    split at h
    · cases h
      refine ⟨rfl, rfl, filterMap_map_of_eq (fun f => ?_) _⟩
      split <;> rfl
    · cases h
  | tick ks =>
    simp only [pasoBucle] at h
    split at h
    · split at h
      · cases h
        exact ajeno_bucle _
      · cases h
    · cases h
  | falla =>
    simp only [pasoBucle] at h
    split at h <;> cases h <;> exact ajeno_bucle _
  | carga =>
    simp only [pasoBucle] at h
    split at h <;> cases h <;> exact ajeno_bucle _
  | entrega =>
    simp only [pasoBucle] at h
    split at h
    · cases h
      exact ajeno_bucle _
    · cases h
  | duerme =>
    simp only [pasoBucle] at h
    split at h
    · cases h
      exact ajeno_bucle _
    · cases h
  | _ => cases h

/-- A task that has passed the check takes its id, or stores its row. -/
inductive Almacena (b b' : Sistema) : Prop
  | inserta {i : ℕ} {t t' : Tarea} (ht : b.tareas[i]? = some t)
      (htareas : b'.tareas = b.tareas.set i t') (hl : t'.llegada = t.llegada)
      (hm : enMarcha? t' = enMarcha? t) (hlleg : b'.llegadas = b.llegadas)
      (hlug : lugares b' = lugares b)
  | confirma {i : ℕ} {t : Tarea} (ht : b.tareas[i]? = some t) (hm : enMarcha? t = some t.llegada)
      (htareas : b'.tareas = b.tareas.eraseIdx i) (hlleg : b'.llegadas = b.llegadas)
      (hlug : lugares b' = lugares b ++ [t.llegada])

/-- The steps other than the start, the check and the end of a task. -/
theorem paso_ajeno (h : paso cfg b a = some b') (hll : ∀ k d, a ≠ .llega k d)
    (hab : ∀ i, a ≠ .abandona i) (hpr : ∀ i text, a ≠ .prepara i text) (hre : a ≠ .reinicia) :
    Ajeno b b' ∨ Almacena b b' := by
  unfold paso at h
  split at h
  · cases h
    exact Or.inl ⟨rfl, rfl, rfl⟩
  · exact absurd rfl hre
  · rcases Option.or_eq_some_iff.mp h with h | ⟨-, h⟩
    · cases a with
      | llega k d => exact absurd rfl (hll k d)
      | abandona i => exact absurd rfl (hab i)
      | prepara i text => exact absurd rfl (hpr i text)
      | inserta i =>
        simp only [pasoTarea] at h
        split at h
        · next t ht =>
          split at h
          · next message ts hf =>
            cases h
            exact Or.inr (.inserta ht rfl rfl (by simp [enMarcha?, hf]) rfl rfl)
          · cases h
        · cases h
      | confirma i =>
        simp only [pasoTarea] at h
        split at h
        · next t ht =>
          split at h
          · next message ts id hf =>
            cases h
            refine Or.inr (.confirma ht (by simp [enMarcha?, hf]) rfl rfl ?_)
            simp [lugares, lugar?, Tarea.fila]
          · cases h
        · cases h
      | _ => cases h
    · rcases Option.or_eq_some_iff.mp h with h | ⟨-, h⟩
      · exact Or.inl (pasoTurno_ajeno h)
      · exact Or.inl (pasoBucle_ajeno h)

/-- The check: a task that finds the same text is over, any other has passed it. -/
theorem paso_prepara {i : ℕ} {text : Texto} {t : Tarea} (ht : b.tareas[i]? = some t)
    (h : paso cfg b (.prepara i text) = some b') :
    t.fase = .espera ∧ b' = if b.duplicada cfg t text then { b with tareas := b.tareas.eraseIdx i }
      else { b with tareas := b.tareas.set i { t with fase := .preparada text b.reloj } } := by
  have hp : (pasoTarea cfg b (.prepara i text)).or none = some b' := h
  rw [Option.or_none] at hp
  simp only [pasoTarea, ht] at hp
  by_cases hf : t.fase = .espera
  · refine ⟨hf, ?_⟩
    rw [if_pos hf] at hp
    by_cases hd : b.duplicada cfg t text <;> simp_all
  · rw [if_neg hf] at hp
    cases hp

end Base

/-! ## Runs -/

section Runs

variable {cfg : Config} {s s' : Ingesta} {a : AccionIngesta}

/-- Every message that reached the gateway is on the stream, in a task or stored, and none
is stored or about to be twice. -/
structure Fiel (s : Ingesta) : Prop where
  largo : s.base.llegadas = s.origen.length
  acotados : ∀ l ∈ puestos s.base, l < s.origen.length
  tareas : ∀ t ∈ s.base.tareas, t.llegada < s.origen.length
  nodup : s.guardados.Nodup
  vivos : ∀ m ∈ s.llegados, m.id ∈ s.enVuelo.map Mensaje.id ∨
    (∃ t ∈ s.base.tareas, numeroEn s.origen t.llegada = some m.id) ∨ m.id ∈ s.almacenados
  tirados : ∀ n ∈ s.tirados, n ∈ s.almacenados

theorem fiel_inicial : Fiel {} where
  largo := rfl
  acotados l h := by cases h
  tareas t h := by cases h
  nodup := List.nodup_nil
  vivos m h := by cases h
  tirados n h := by cases h

theorem exists_of_porHacer {n : ℕ} (h : (pasoIngesta cfg s a).map Ingesta.porHacer = some n)
    (hn : n < s.porHacer) : ∃ a s', pasoIngesta cfg s a = some s' ∧ s'.porHacer < s.porHacer := by
  obtain ⟨s', hs', rfl⟩ := Option.map_eq_some_iff.mp h
  exact ⟨a, s', hs', hn⟩

/-- The first task can go on. -/
theorem Fiel.tarea_progresa {t : Tarea} {ts : List Tarea} (h : Fiel s)
    (ht : s.base.tareas = t :: ts) :
    ∃ a s', pasoIngesta cfg s a = some s' ∧ s'.porHacer < s.porHacer := by
  cases hf : t.fase with
  | espera =>
    have hlen : t.llegada < s.origen.length := h.tareas t (by rw [ht]; exact List.mem_cons_self)
    obtain ⟨m, hm⟩ : ∃ m, s.origen[t.llegada]? = some m :=
      ⟨s.origen[t.llegada], List.getElem?_eq_getElem hlen⟩
    have htext : m.texto.all (fun u => u = m.texto.getD []) = true := by cases m.texto <;> simp
    by_cases hd : s.base.duplicada cfg t (m.texto.getD [])
    · have hstep : (pasoIngesta cfg s (.sistema (.prepara 0 (m.texto.getD [])))).map
          Ingesta.porHacer = some (s.porHacer - 3) := by
        simp [pasoIngesta, paso, pasoTarea, Ingesta.porHacer, ht, hf, hm, htext, hd]
        omega
      exact exists_of_porHacer hstep (by simp [Ingesta.porHacer, ht, hf])
    · have hstep : (pasoIngesta cfg s (.sistema (.prepara 0 (m.texto.getD [])))).map
          Ingesta.porHacer = some (s.porHacer - 1) := by
        simp [pasoIngesta, paso, pasoTarea, Ingesta.porHacer, ht, hf, hm, htext, hd]
        omega
      exact exists_of_porHacer hstep (by simp [Ingesta.porHacer, ht, hf])
  | preparada message time =>
    have hstep : (pasoIngesta cfg s (.sistema (.inserta 0))).map Ingesta.porHacer =
        some (s.porHacer - 1) := by
      simp [pasoIngesta, paso, pasoTarea, Ingesta.porHacer, ht, hf]
      omega
    exact exists_of_porHacer hstep (by simp [Ingesta.porHacer, ht, hf])
  | insertada message time id =>
    have hstep : (pasoIngesta cfg s (.sistema (.confirma 0))).map Ingesta.porHacer =
        some (s.porHacer - 1) := by
      simp [pasoIngesta, paso, pasoTarea, Ingesta.porHacer, ht, hf]
      omega
    exact exists_of_porHacer hstep (by simp [Ingesta.porHacer, ht, hf])

theorem Fiel.progresa (h : Fiel s) (hw : s.enVuelo ≠ [] ∨ s.base.tareas ≠ []) :
    ∃ a s', pasoIngesta cfg s a = some s' ∧ s'.porHacer < s.porHacer := by
  cases hv : s.enVuelo with
  | cons m ms =>
    have hstep : (pasoIngesta cfg s .recibe).map Ingesta.porHacer = some (s.porHacer - 1) := by
      simp [pasoIngesta, paso, pasoTarea, Ingesta.porHacer, hv]
      omega
    exact exists_of_porHacer hstep (by simp [Ingesta.porHacer, hv])
  | nil =>
    have hne : s.base.tareas ≠ [] := by simpa [hv] using hw
    obtain ⟨t, ts, ht⟩ := List.exists_cons_of_ne_nil hne
    exact h.tarea_progresa ht

/-- A step that only changes the base system and keeps what is guarded. -/
theorem Fiel.of_base {b : Sistema} (h : Fiel s) (hlleg : b.llegadas = s.base.llegadas)
    (hp : (puestos b).Perm (puestos s.base))
    (ht : ∀ t ∈ b.tareas, ∃ t₀ ∈ s.base.tareas, t₀.llegada = t.llegada)
    (hv : ∀ t ∈ s.base.tareas, ∀ n, numeroEn s.origen t.llegada = some n →
      (∃ t' ∈ b.tareas, numeroEn s.origen t'.llegada = some n) ∨
        n ∈ (lugares b).filterMap (numeroEn s.origen))
    (hl : ∀ l ∈ lugares s.base, l ∈ lugares b) : Fiel { s with base := b } := by
  have hg : (Ingesta.guardados { s with base := b }).Perm s.guardados := hp.filterMap _
  refine ⟨hlleg.trans h.largo, fun l hmem => h.acotados l (hp.mem_iff.mp hmem), fun t hmem => ?_,
    hg.nodup_iff.mpr h.nodup, fun m hm => ?_, fun n hn => ?_⟩
  · obtain ⟨t₀, ht₀, hll⟩ := ht t hmem
    exact hll ▸ h.tareas t₀ ht₀
  · rcases h.vivos m hm with hfly | ⟨t, htask, hid⟩ | hst
    · exact Or.inl hfly
    · exact Or.inr (hv t htask m.id hid)
    · obtain ⟨l, hlm, hid⟩ := List.mem_filterMap.mp hst
      exact Or.inr (Or.inr (List.mem_filterMap.mpr ⟨l, hl l hlm, hid⟩))
  · obtain ⟨l, hlm, hid⟩ := List.mem_filterMap.mp (h.tirados n hn)
    exact List.mem_filterMap.mpr ⟨l, hl l hlm, hid⟩

theorem Fiel.con_tirados {ns : List ℕ} (h : Fiel s) (hn : ∀ n ∈ ns, n ∈ s.almacenados) :
    Fiel { s with tirados := ns } :=
  ⟨h.largo, h.acotados, h.tareas, h.nodup, h.vivos, hn⟩

theorem Fiel.ajeno {b : Sistema} (h : Fiel s) (hb : Ajeno s.base b) : Fiel { s with base := b } := by
  refine h.of_base hb.llegadas ?_ ?_ ?_ ?_
  · rw [puestos, puestos, hb.lugares, hb.tareas]
  · intro t ht
    exact ⟨t, hb.tareas ▸ ht, rfl⟩
  · intro t ht n hid
    exact Or.inl ⟨t, hb.tareas ▸ ht, hid⟩
  · intro l hl
    rwa [hb.lugares]

theorem Fiel.almacena {b : Sistema} (h : Fiel s) (hb : Almacena s.base b) :
    Fiel { s with base := b } := by
  cases hb with
  | @inserta i t t' ht htareas hll hm hlleg hlug =>
    refine h.of_base hlleg ?_ ?_ ?_ ?_
    · rw [puestos, puestos, hlug, htareas, filterMap_set_of_eq ht hm.symm]
    · intro u hu
      rw [htareas] at hu
      rcases List.mem_or_eq_of_mem_set hu with hu | rfl
      · exact ⟨u, hu, rfl⟩
      · exact ⟨t, List.mem_of_getElem? ht, hll.symm⟩
    · intro u hu n hid
      rw [htareas]
      rcases eq_or_mem_set ht t' hu with rfl | hu
      · exact Or.inl ⟨t', List.mem_set (List.getElem?_eq_some_iff.mp ht).1 t', hll ▸ hid⟩
      · exact Or.inl ⟨u, hu, hid⟩
    · intro l hl
      rwa [hlug]
  | @confirma i t ht hm htareas hlleg hlug =>
    refine h.of_base hlleg ?_ ?_ ?_ ?_
    · rw [puestos, puestos, hlug, htareas, List.append_assoc]
      exact (filterMap_eraseIdx_perm ht hm).symm.append_left _
    · intro u hu
      rw [htareas] at hu
      exact ⟨u, List.mem_of_mem_eraseIdx hu, rfl⟩
    · intro u hu n hid
      rw [htareas, hlug]
      rcases eq_or_mem_eraseIdx ht hu with rfl | hu
      · exact Or.inr (List.mem_filterMap.mpr
          ⟨u.llegada, List.mem_append_right _ (List.mem_singleton.mpr rfl), hid⟩)
      · exact Or.inl ⟨u, hu, hid⟩
    · intro l hl
      rw [hlug]
      exact List.mem_append_left _ hl

/-- A message is guarded by its row or by a task that has passed the check. -/
theorem mem_guardados {n : ℕ} : n ∈ s.guardados ↔ n ∈ s.almacenados ∨
    ∃ t ∈ s.base.tareas, t.fase ≠ .espera ∧ numeroEn s.origen t.llegada = some n := by
  have htask : n ∈ (s.base.tareas.filterMap enMarcha?).filterMap (numeroEn s.origen) ↔
      ∃ t ∈ s.base.tareas, t.fase ≠ .espera ∧ numeroEn s.origen t.llegada = some n := by
    simp only [List.mem_filterMap, enMarcha?]
    constructor
    · rintro ⟨l, ⟨t, ht, hl⟩, hid⟩
      split at hl
      · cases hl
      · next hf =>
        obtain rfl := Option.some.inj hl
        exact ⟨t, ht, hf, hid⟩
    · rintro ⟨t, ht, hf, hid⟩
      exact ⟨t.llegada, ⟨t, ht, if_neg hf⟩, hid⟩
  rw [Ingesta.guardados, puestos, List.filterMap_append, List.mem_append, htask]
  rfl

section Check

variable {i : ℕ} {text : Texto} {t : Tarea} {m : Mensaje}

/-- A task is gone whose message is also on the stream, with another task, or stored. -/
theorem Fiel.sin_tarea (h : Fiel s) (ht : s.base.tareas[i]? = some t)
    (hn : ∀ n, numeroEn s.origen t.llegada = some n → s.sigue i n) :
    Fiel { s with base := { s.base with tareas := s.base.tareas.eraseIdx i } } := by
  have hsub : (puestos { s.base with tareas := s.base.tareas.eraseIdx i }).Sublist (puestos s.base) :=
    ((List.eraseIdx_sublist ..).filterMap _).append_left _
  refine ⟨h.largo, fun l hl => h.acotados l (hsub.subset hl),
    fun u hu => h.tareas u (List.mem_of_mem_eraseIdx hu), (hsub.filterMap _).nodup h.nodup,
    fun m hm => ?_, h.tirados⟩
  rcases h.vivos m hm with hfly | ⟨u, hu, hid⟩ | hst
  · exact Or.inl hfly
  · rcases eq_or_mem_eraseIdx ht hu with rfl | hu
    · have hsigue := hn m.id hid
      simp only [Ingesta.sigue, Bool.or_eq_true, List.contains_iff_mem, List.any_eq_true,
        decide_eq_true_eq] at hsigue
      exact or_assoc.mp hsigue
    · exact Or.inr (Or.inl ⟨u, hu, hid⟩)
  · exact Or.inr (Or.inr hst)

/-- A task dropped as a duplicate: its message is stored. -/
theorem Fiel.descarta (h : Fiel s) (ht : s.base.tareas[i]? = some t)
    (hnum : numeroEn s.origen t.llegada = some m.id) (hkept : m.id ∈ s.almacenados) :
    Fiel { s with
      base := { s.base with tareas := s.base.tareas.eraseIdx i }
      tirados := s.tirados ++ [m.id] } := by
  have hbase := h.sin_tarea ht fun n hn => by
    obtain rfl : m.id = n := Option.some.inj (hnum.symm.trans hn)
    simp [Ingesta.sigue, hkept]
  refine hbase.con_tirados fun n hn => ?_
  rcases List.mem_append.mp hn with hn | hn
  · exact h.tirados n hn
  · exact List.mem_singleton.mp hn ▸ hkept

/-- A task that passes the check: its message was not guarded. -/
theorem Fiel.pasa (h : Fiel s) (ht : s.base.tareas[i]? = some t) (hf : t.fase = .espera)
    (hnum : numeroEn s.origen t.llegada = some m.id) (hnew : m.id ∉ s.guardados) :
    Fiel { s with base := { s.base with
      tareas := s.base.tareas.set i { t with fase := .preparada text s.base.reloj } } } := by
  have hlen := h.tareas t (List.mem_of_getElem? ht)
  have hp : (puestos { s.base with
      tareas := s.base.tareas.set i { t with fase := .preparada text s.base.reloj } }).Perm
      (t.llegada :: puestos s.base) := by
    have hset := filterMap_set_perm (f := enMarcha?) (x := t.llegada)
      (b := { t with fase := .preparada text s.base.reloj }) ht (by simp [enMarcha?, hf]) rfl
    exact (hset.append_left _).trans List.perm_middle
  have hg : (Ingesta.guardados { s with base := { s.base with
      tareas := s.base.tareas.set i { t with fase := .preparada text s.base.reloj } } }).Perm
      (m.id :: s.guardados) := by
    have := hp.filterMap (numeroEn s.origen)
    rwa [List.filterMap_cons_some hnum] at this
  refine ⟨h.largo, fun l hl => ?_, fun u hu => ?_, ?_, fun m' hm' => ?_, fun n hn => ?_⟩
  · rcases List.mem_cons.mp (hp.mem_iff.mp hl) with rfl | hl
    · exact hlen
    · exact h.acotados l hl
  · rcases List.mem_or_eq_of_mem_set hu with hu | rfl
    · exact h.tareas u hu
    · exact hlen
  · exact hg.nodup_iff.mpr (List.nodup_cons.mpr ⟨hnew, h.nodup⟩)
  · rcases h.vivos m' hm' with hfly | ⟨u, hu, hid⟩ | hst
    · exact Or.inl hfly
    · refine Or.inr (Or.inl ?_)
      rcases eq_or_mem_set ht { t with fase := .preparada text s.base.reloj } hu with rfl | hu
      · exact ⟨_, List.mem_set (List.getElem?_eq_some_iff.mp ht).1 _, hid⟩
      · exact ⟨u, hu, hid⟩
    · exact Or.inr (Or.inr hst)
  · exact h.tirados n hn

end Check

/-- More on the stream, or fewer events when nothing is on it. -/
theorem Fiel.con_vuelo {ms : List Mensaje} (h : Fiel s) (c : Bool)
    (hms : ∀ m ∈ s.enVuelo, m ∈ ms) : Fiel { s with conectado := c, enVuelo := ms } := by
  refine ⟨h.largo, h.acotados, h.tareas, h.nodup, fun m hm => ?_, h.tirados⟩
  rcases h.vivos m hm with hfly | hrest
  · obtain ⟨m', hm', hid⟩ := List.mem_map.mp hfly
    exact Or.inl (List.mem_map.mpr ⟨m', hms m' hm', hid⟩)
  · exact Or.inr hrest

/-- A message that reaches the gateway while the bot listens. -/
theorem Fiel.llega {m : Mensaje} (h : Fiel s) (hc : s.conectado = true) :
    Fiel ({ s with llegados := s.llegados ++ [m] }.broadcastEvent m) := by
  have heq : { s with llegados := s.llegados ++ [m] }.broadcastEvent m =
      { s with llegados := s.llegados ++ [m], enVuelo := s.enVuelo ++ [m] } := if_pos hc
  have hfly := h.con_vuelo s.conectado fun m' (hm' : m' ∈ s.enVuelo) => List.mem_append_left [m] hm'
  rw [heq]
  refine ⟨hfly.largo, hfly.acotados, hfly.tareas, hfly.nodup, fun m' hm' => ?_, hfly.tirados⟩
  rcases List.mem_append.mp hm' with hm' | hm'
  · exact hfly.vivos m' hm'
  · obtain rfl := List.mem_singleton.mp hm'
    exact Or.inl (List.mem_map.mpr ⟨m', List.mem_append_right _ (List.mem_singleton.mpr rfl), rfl⟩)

theorem numeroEn_append {o : List Mensaje} {l : ℕ} (h : l < o.length) (m : Mensaje) :
    numeroEn (o ++ [m]) l = numeroEn o l := by
  rw [numeroEn, numeroEn, List.getElem?_append_left h]

/-- The bot reads the next event of the stream and starts its task. -/
theorem Fiel.recibe {m : Mensaje} {ms : List Mensaje} (h : Fiel s) (hv : s.enVuelo = m :: ms) :
    Fiel { s with
      base := { s.base with
        tareas := s.base.tareas ++
          [{ llegada := s.base.llegadas, clave := m.clave, direction := m.direction }]
        llegadas := s.base.llegadas + 1 }
      enVuelo := ms
      origen := s.origen ++ [m] } := by
  have hp (ys : List ℕ) (hys : ∀ l ∈ ys, l < s.origen.length) :
      ys.filterMap (numeroEn (s.origen ++ [m])) = ys.filterMap (numeroEn s.origen) :=
    List.filterMap_congr fun l hl => numeroEn_append (hys l hl) m
  have hput : puestos { s.base with
      tareas := s.base.tareas ++
        [{ llegada := s.base.llegadas, clave := m.clave, direction := m.direction }]
      llegadas := s.base.llegadas + 1 } = puestos s.base := by
    simp only [puestos, lugares]
    rw [filterMap_append_of_none rfl]
  have hlen : (s.origen ++ [m]).length = s.origen.length + 1 := by simp
  have hlug : ∀ l ∈ lugares s.base, l < s.origen.length := fun l hl =>
    h.acotados l (List.mem_append_left _ hl)
  refine ⟨?_, fun l hl => ?_, fun t ht => ?_, ?_, fun m' hm' => ?_, fun n hn => ?_⟩
  · rw [hlen, ← h.largo]
  · rw [hput] at hl
    exact hlen ▸ Nat.lt_succ_of_lt (h.acotados l hl)
  · rcases List.mem_append.mp ht with ht | ht
    · exact hlen ▸ Nat.lt_succ_of_lt (h.tareas t ht)
    · obtain rfl := List.mem_singleton.mp ht
      exact hlen ▸ h.largo ▸ Nat.lt_succ_self _
  · rw [Ingesta.guardados, hput, hp _ h.acotados]
    exact h.nodup
  · rcases h.vivos m' hm' with hfly | ⟨t, ht, hid⟩ | hst
    · rw [hv, List.map_cons, List.mem_cons] at hfly
      rcases hfly with hid | hfly
      · refine Or.inr (Or.inl ⟨_, List.mem_append_right _ (List.mem_singleton.mpr rfl), ?_⟩)
        simp [numeroEn, h.largo, hid]
      · exact Or.inl hfly
    · refine Or.inr (Or.inl ⟨t, List.mem_append_left _ ht, ?_⟩)
      exact (numeroEn_append (h.tareas t ht) m).trans hid
    · refine Or.inr (Or.inr ?_)
      rw [Ingesta.almacenados]
      dsimp only
      exact (hp _ hlug).symm ▸ hst
  · rw [Ingesta.almacenados]
    dsimp only
    exact (hp _ hlug).symm ▸ h.tirados n hn

/-! ## Every event is a message -/

/-- The base system with the record of what it has read. -/
def Ingesta.oido (s : Ingesta) : Oido := ⟨s.base, s.origen.map fun m => (m.clave, m.direction)⟩

/-- The events that were read and those on the stream are messages that reached the gateway, which
have numbers of their own, and rows and tasks stand where their event was read. -/
structure Rastro (s : Ingesta) : Prop where
  apuntado : s.oido.Apuntado
  ids : (s.llegados.map Mensaje.id).Nodup
  enVuelo : ∀ m ∈ s.enVuelo, m ∈ s.llegados
  origen : ∀ m ∈ s.origen, m ∈ s.llegados

theorem rastro_inicial : Rastro {} where
  apuntado := Conversation.apuntado_inicial
  ids := List.nodup_nil
  enVuelo m h := by cases h
  origen m h := by cases h

theorem Rastro.con_base {b : Sistema} (h : Rastro s) {x : Accion} (hb : paso cfg s.base x = some b)
    (hx : ∀ k d, x ≠ .llega k d) : Rastro { s with base := b } :=
  ⟨Conversation.apuntado_of_paso (Conversation.paso_cases hb) hx h.apuntado, h.ids, h.enVuelo, h.origen⟩

theorem rastro_paso (hp : pasoIngesta cfg s a = some s') (h : Rastro s) : Rastro s' := by
  unfold pasoIngesta at hp
  split at hp
  · obtain rfl := Option.some.inj hp
    exact ⟨h.apuntado, h.ids, h.enVuelo, h.origen⟩
  · obtain rfl := Option.some.inj hp
    exact ⟨h.apuntado, h.ids, fun m hm => absurd hm List.not_mem_nil, h.origen⟩
  · next m =>
    split at hp
    · cases hp
    · next hnew =>
      obtain rfl := Option.some.inj hp
      have hids : ((s.llegados ++ [m]).map Mensaje.id).Nodup := by
        rw [List.map_append, List.map_singleton, ← List.concat_eq_append]
        exact h.ids.concat hnew
      have hold {u : Mensaje} (hu : u ∈ s.llegados) : u ∈ s.llegados ++ [m] :=
        List.mem_append_left _ hu
      unfold Ingesta.broadcastEvent
      split
      · refine ⟨h.apuntado, hids, fun u hu => ?_, fun u hu => hold (h.origen u hu)⟩
        rcases List.mem_append.mp hu with hu | hu
        · exact hold (h.enVuelo u hu)
        · exact List.mem_append_right _ hu
      · exact ⟨h.apuntado, hids, fun u hu => hold (h.enVuelo u hu), fun u hu => hold (h.origen u hu)⟩
  · next m =>
    split at hp
    · next hm =>
      obtain rfl := Option.some.inj hp
      unfold Ingesta.broadcastEvent
      split
      · refine ⟨h.apuntado, h.ids, fun u hu => ?_, h.origen⟩
        rcases List.mem_append.mp hu with hu | hu
        · exact h.enVuelo u hu
        · exact List.mem_singleton.mp hu ▸ hm
      · exact h
    · cases hp
  · split at hp
    · cases hp
    · next m ms hv =>
      obtain ⟨b, hb, rfl⟩ := Option.map_eq_some_iff.mp hp
      have hread : s.oido.paso cfg (.llega m.clave m.direction) =
          some ⟨b, s.oido.escrito ++ [(m.clave, m.direction)]⟩ := by
        rw [Conversation.Oido.paso, Ingesta.oido]
        dsimp only
        rw [hb]
        rfl
      have hap := Conversation.apuntado_paso hread h.apuntado
      refine ⟨?_, h.ids, fun u hu => h.enVuelo u (hv ▸ List.mem_cons_of_mem _ hu), fun u hu => ?_⟩
      · rw [Ingesta.oido, List.map_append]
        exact hap
      · rcases List.mem_append.mp hu with hu | hu
        · exact h.origen u hu
        · exact h.enVuelo u (hv ▸ List.mem_singleton.mp hu ▸ List.mem_cons_self)
  · cases hp
  · obtain ⟨b, hb, rfl⟩ := Option.map_eq_some_iff.mp hp
    have hbase := h.con_base hb (by simp)
    exact ⟨hbase.apuntado, h.ids, fun m hm => absurd hm List.not_mem_nil, h.origen⟩
  · split at hp
    · cases hp
    · split at hp
      · cases hp
      · split at hp
        · obtain ⟨b, hb, rfl⟩ := Option.map_eq_some_iff.mp hp
          have hbase := h.con_base hb (by simp)
          exact ⟨hbase.apuntado, h.ids, h.enVuelo, h.origen⟩
        · cases hp
  · next a hll hre hpr =>
    obtain ⟨b, hb, rfl⟩ := Option.map_eq_some_iff.mp hp
    exact h.con_base hb hll

/-! ## What a row says -/

/-- The text that a task is about to store. -/
def texto? (t : Tarea) : Option Texto :=
  match t.fase with
  | .espera => none
  | .preparada text _ => some text
  | .insertada text _ _ => some text

/-- The event at this place was read with this text, or a model reads it. -/
def Dice (origen : List Mensaje) (l : ℕ) (text : Texto) : Prop :=
  ∃ m, origen[l]? = some m ∧ ∀ u ∈ m.texto, u = text

theorem Dice.append {o : List Mensaje} {l : ℕ} {text : Texto} (h : Dice o l text) (m : Mensaje) :
    Dice (o ++ [m]) l text := by
  obtain ⟨u, hu, htext⟩ := h
  exact ⟨u, by rw [List.getElem?_append_left (List.getElem?_eq_some_iff.mp hu).1, hu], htext⟩

/-- Tasks and rows say what was read. -/
structure Textual (origen : List Mensaje) (b : Sistema) : Prop where
  tareas : ∀ t ∈ b.tareas, ∀ text ∈ texto? t, Dice origen t.llegada text
  filas : ∀ f ∈ b.filas, f.isBot = false → Dice origen f.llegada f.message

theorem textual_inicial : Textual [] Conversation.inicial :=
  ⟨fun _ ht => absurd ht List.not_mem_nil, fun _ hf => absurd hf List.not_mem_nil⟩

/-- A step of the base system keeps it, if the text that a task prepares is that of its event. -/
theorem textual_of_paso {o : List Mensaje} {b b' : Sistema} {x : Accion}
    (hp : Conversation.Paso cfg b x b')
    (hx : ∀ i text t, x = .prepara i text → b.tareas[i]? = some t → Dice o t.llegada text)
    (h : Textual o b) : Textual o b' := by
  cases hp with
  | reloj d => exact ⟨h.tareas, h.filas⟩
  | llega k d =>
    refine ⟨fun t ht text htext => ?_, h.filas⟩
    rcases List.mem_append.mp ht with ht | ht
    · exact h.tareas t ht text htext
    · obtain rfl := List.mem_singleton.mp ht
      cases htext
  | quita i => exact ⟨fun t ht => h.tareas t (List.mem_of_mem_eraseIdx ht), h.filas⟩
  | @prepara i t message ht hf =>
    refine ⟨fun u hu text htext => ?_, h.filas⟩
    rcases List.mem_or_eq_of_mem_set hu with hu | rfl
    · exact h.tareas u hu text htext
    · obtain rfl : message = text := Option.some.inj htext
      exact hx i message t rfl ht
  | @inserta i t message ts ht hf =>
    refine ⟨fun u hu text htext => ?_, h.filas⟩
    rcases List.mem_or_eq_of_mem_set hu with hu | rfl
    · exact h.tareas u hu text htext
    · obtain rfl : message = text := Option.some.inj htext
      exact h.tareas t (List.mem_of_getElem? ht) message (by simp [texto?, hf])
  | @confirma i t message ts id ht hf =>
    refine ⟨fun u hu => h.tareas u (List.mem_of_mem_eraseIdx hu), fun f hfila hb => ?_⟩
    rcases List.mem_append.mp hfila with hfila | hfila
    · exact h.filas f hfila hb
    · obtain rfl := List.mem_singleton.mp hfila
      exact h.tareas t (List.mem_of_getElem? ht) message (by simp [texto?, hf])
  | avanza hb => exact ⟨h.tareas, h.filas⟩
  | done y fin hb => exact ⟨h.tareas, h.filas⟩
  | responde y hb hr =>
    refine ⟨h.tareas, fun f hf hbot => ?_⟩
    rcases List.mem_append.mp hf with hf | hf
    · exact h.filas f hf hbot
    · -- the bot's own row
      obtain rfl := List.mem_singleton.mp hf
      cases hbot
  | anota ok hb =>
    refine ⟨h.tareas, fun f hf hbot => ?_⟩
    obtain ⟨g, hg, status, attempts, rfl, -⟩ := Conversation.mem_trasEnvio hf
    exact h.filas g hg hbot
  | reinicia => exact ⟨fun t ht => absurd ht List.not_mem_nil, h.filas⟩

theorem textual_paso (hp : pasoIngesta cfg s a = some s') (h : Textual s.origen s.base) :
    Textual s'.origen s'.base := by
  have hbase {x : Accion} {b : Sistema} (hb : paso cfg s.base x = some b)
      (hx : ∀ i text, x ≠ .prepara i text) : Textual s.origen b :=
    textual_of_paso (Conversation.paso_cases hb) (fun i text _ heq => absurd heq (hx i text)) h
  unfold pasoIngesta at hp
  split at hp
  · obtain rfl := Option.some.inj hp
    exact h
  · obtain rfl := Option.some.inj hp
    exact h
  · split at hp
    · cases hp
    · obtain rfl := Option.some.inj hp
      unfold Ingesta.broadcastEvent
      split <;> exact h
  · split at hp
    · obtain rfl := Option.some.inj hp
      unfold Ingesta.broadcastEvent
      split <;> exact h
    · cases hp
  · split at hp
    · cases hp
    · next m ms hv =>
      obtain ⟨b, hb, rfl⟩ := Option.map_eq_some_iff.mp hp
      have hread := hbase hb (by simp)
      exact ⟨fun t ht text htext => (hread.tareas t ht text htext).append m,
        fun f hf hbot => (hread.filas f hf hbot).append m⟩
  · cases hp
  · obtain ⟨b, hb, rfl⟩ := Option.map_eq_some_iff.mp hp
    exact hbase hb (by simp)
  · next i text =>
    split at hp
    · cases hp
    · next t ht =>
      split at hp
      · cases hp
      · next m hm =>
        split at hp
        · next hall =>
          obtain ⟨b, hb, rfl⟩ := Option.map_eq_some_iff.mp hp
          refine textual_of_paso (Conversation.paso_cases hb) (fun j u t' heq ht' => ?_) h
          obtain ⟨rfl, rfl⟩ := Accion.prepara.inj heq
          obtain rfl : t = t' := Option.some.inj (ht.symm.trans ht')
          refine ⟨m, hm, fun u hu => ?_⟩
          simpa [Option.mem_def.mp hu] using hall
        · cases hp
  · next x hll hre hpr =>
    obtain ⟨b, hb, rfl⟩ := Option.map_eq_some_iff.mp hp
    exact hbase hb hpr

/-- A row of the table is of a message that reached the gateway. -/
theorem Rastro.lleva (h : Rastro s) (ht : Textual s.origen s.base) {f : Fila} (hf : f ∈ s.base.filas)
    (hb : f.isBot = false) : ∃ m ∈ s.llegados, s.origen[f.llegada]? = some m ∧ Lleva f m := by
  obtain ⟨m, hm, htext⟩ := ht.filas f hf hb
  have hfila := h.apuntado.filas f hf hb
  simp only [Ingesta.oido, List.getElem?_map, hm, Option.map_some, Option.some.injEq,
    Prod.mk.injEq] at hfila
  exact ⟨m, h.origen m (List.mem_of_getElem? hm), hm, hfila.1.symm, hfila.2.symm, htext⟩

section Query

variable {i : ℕ} {text : Texto} {t : Tarea} {m : Mensaje}

theorem mem_almacenados {n : ℕ} : n ∈ s.almacenados ↔
    ∃ f ∈ s.base.filas, f.isBot = false ∧ numeroEn s.origen f.llegada = some n := by
  simp only [Ingesta.almacenados, lugares, List.mem_filterMap, lugar?]
  constructor
  · rintro ⟨l, ⟨f, hf, hl⟩, hid⟩
    split at hl
    · cases hl
    · next hb =>
      obtain rfl := Option.some.inj hl
      exact ⟨f, hf, Bool.eq_false_of_not_eq_true hb, hid⟩
  · rintro ⟨f, hf, hb, hid⟩
    exact ⟨f.llegada, ⟨f, hf, by simp [hb]⟩, hid⟩

/-- A row of the message that a task brings belongs to the conversation of the task. -/
theorem Rastro.misma (h : Rastro s) (ht : t ∈ s.base.tareas) {f : Fila} (hf : f ∈ s.base.filas)
    (hb : f.isBot = false) (hm : s.origen[t.llegada]? = some m)
    (hn : numeroEn s.origen f.llegada = some m.id) : f.clave = t.clave ∧ f.direction = t.direction := by
  obtain ⟨u, hu, hid⟩ := Option.map_eq_some_iff.mp hn
  have hsame : u = m := List.inj_on_of_nodup_map h.ids (h.origen u (List.mem_of_getElem? hu))
    (h.origen m (List.mem_of_getElem? hm)) hid
  have hfila := h.apuntado.filas f hf hb
  have htarea := h.apuntado.tareas t ht
  simp only [Ingesta.oido, List.getElem?_map, hu, hm, hsame, Option.map_some, Option.some.injEq,
    Prod.mk.injEq] at hfila htarea
  exact ⟨hfila.1.symm.trans htarea.1, hfila.2.symm.trans htarea.2⟩

/-- When text and time tell the message, the check finds a row exactly if the message is stored,
and lets it pass only if nobody is storing it. -/
theorem Rastro.comprueba (h : Rastro s) (ht : t ∈ s.base.tareas)
    (hm : s.origen[t.llegada]? = some m) (hd : s.distingue cfg t text m.id) :
    if s.base.duplicada cfg t text then m.id ∈ s.almacenados else m.id ∉ s.guardados := by
  simp only [Ingesta.distingue, Bool.and_eq_true, List.all_eq_true] at hd
  obtain ⟨⟨hown, hfound⟩, halone⟩ := hd
  split
  · next hdup =>
    obtain ⟨f, hf, hmatch⟩ := List.any_eq_true.mp hdup
    have hrow := hown f hf
    have hc : coincide cfg s.base t text f = true := hmatch
    simp only [hc, Bool.not_true, Bool.false_or, Bool.and_eq_true, Bool.not_eq_true',
      decide_eq_true_eq] at hrow
    exact mem_almacenados.mpr ⟨f, (Conversation.mem_conversacion.mp hf).1, hrow⟩
  · next hdup =>
    intro hmem
    rcases mem_guardados.mp hmem with hst | ⟨u, hu, hfase, hid⟩
    · obtain ⟨f, hf, hb, hn⟩ := mem_almacenados.mp hst
      obtain ⟨hk, hdir⟩ := h.misma ht hf hb hm hn
      have hrow := hfound f hf
      simp only [hb, hn, Bool.false_or, ne_eq, not_true_eq_false, decide_false, Bool.and_eq_true,
        decide_eq_true_eq] at hrow
      refine hdup (List.any_eq_true.mpr ⟨f, Conversation.mem_conversacion.mpr ⟨hf, hk⟩, ?_⟩)
      simp [hdir, hrow.1, hrow.2]
    · have hother := halone u hu
      simp [hfase, hid] at hother

end Query

theorem fiel_paso (hc : sinPerdida cfg s a = true) (hp : pasoIngesta cfg s a = some s')
    (hr : Rastro s) (h : Fiel s) : Fiel s' := by
  unfold pasoIngesta at hp
  split at hp
  · obtain rfl := Option.some.inj hp
    exact h.con_vuelo true fun _ hm => hm
  · obtain rfl := Option.some.inj hp
    have hnil : s.enVuelo = [] := by simpa [sinPerdida] using hc
    exact h.con_vuelo false (by simp [hnil])
  · split at hp
    · cases hp
    · obtain rfl := Option.some.inj hp
      exact h.llega hc
  · split at hp
    · obtain rfl := Option.some.inj hp
      unfold Ingesta.broadcastEvent
      split
      · exact h.con_vuelo s.conectado fun _ hm => List.mem_append_left _ hm
      · exact h
    · cases hp
  · split at hp
    · cases hp
    · next hv =>
      obtain ⟨b, hb, rfl⟩ := Option.map_eq_some_iff.mp hp
      obtain rfl := Option.some.inj hb
      exact h.recibe hv
  · cases hp
  · obtain ⟨b, hb, rfl⟩ := Option.map_eq_some_iff.mp hp
    obtain rfl := Option.some.inj hb
    obtain ⟨hv, ht⟩ : s.enVuelo = [] ∧ s.base.tareas = [] := by simpa [sinPerdida] using hc
    have hq : Ajeno s.base { s.base with tareas := [], bucle := .reposo } := ⟨ht.symm, rfl, rfl⟩
    exact (h.ajeno hq).con_vuelo false (by simp [hv])
  · next i text =>
    split at hp
    · cases hp
    · next t ht =>
      split at hp
      · cases hp
      · next m hm =>
        split at hp
        · obtain ⟨b, hb, rfl⟩ := Option.map_eq_some_iff.mp hp
          obtain ⟨hf, rfl⟩ := paso_prepara ht hb
          have hnum : numeroEn s.origen t.llegada = some m.id := by simp [numeroEn, hm]
          have hd : s.distingue cfg t text m.id = true := by
            simpa [sinPerdida, ht, hnum] using hc
          have hcheck := hr.comprueba (List.mem_of_getElem? ht) hm hd
          by_cases hd : s.base.duplicada cfg t text
          · rw [if_pos hd] at hcheck
            rw [if_pos hd, if_pos hd]
            exact h.descarta ht hnum hcheck
          · rw [if_neg hd] at hcheck
            rw [if_neg hd, if_neg hd]
            exact h.pasa ht hf hnum hcheck
        · cases hp
  · next a hll hre hpr =>
    obtain ⟨b, hb, rfl⟩ := Option.map_eq_some_iff.mp hp
    cases a with
    | abandona i =>
      have hab : (pasoTarea cfg s.base (.abandona i)).or none = some b := hb
      rw [Option.or_none, pasoTarea] at hab
      split at hab
      · next hi =>
        obtain rfl := Option.some.inj hab
        have ht : s.base.tareas[i]? = some s.base.tareas[i] := List.getElem?_eq_getElem hi
        refine h.sin_tarea ht fun n hn => ?_
        simpa [sinPerdida, ht, hn] using hc
      · cases hab
    | _ =>
      rcases paso_ajeno hb hll (by simp) hpr hre with hq | hq
      · exact h.ajeno hq
      · exact h.almacena hq

theorem Fiel.storedOnce (h : Fiel s) (hr : Rastro s) (ht : Textual s.origen s.base) :
    StoredOnce cfg s := by
  refine ⟨fun f hf hb => hr.lleva ht hf hb, ?_, h.progresa, fun hv htareas m hm => ?_,
    fun _ n hn => h.tirados n hn⟩
  · have hsub : s.almacenados.Sublist s.guardados :=
      (List.sublist_append_left _ _).filterMap _
    exact hsub.nodup h.nodup
  · rcases h.vivos m hm with hfly | ⟨t, htask, -⟩ | hst
    · simp [hv] at hfly
    · simp [htareas] at htask
    · exact hst

end Runs

def pideKajal : Mensaje :=
  ⟨1, ⟨.whatsapp, "600111222", "600999888"⟩, .received, some "ponme 6 del kajal"⟩

/-- The bot listens, a message comes and is stored, and comes again seconds later, twice: once it is
a duplicate, and once its handler raises. -/
def runRedelivered : List AccionIngesta :=
  [.conecta, .llega pideKajal, .recibe, .sistema (.prepara 0 "ponme 6 del kajal"),
    .sistema (.inserta 0), .sistema (.confirma 0), .sistema (.avanza 3), .reentrega pideKajal,
    .recibe, .sistema (.prepara 0 "ponme 6 del kajal"), .reentrega pideKajal, .recibe,
    .sistema (.abandona 0)]

end Chatlink.Gateway
