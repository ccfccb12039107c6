import Chatlink.Text.Python
import Chatlink.Lib.Transition

/-!
# The messages table, the ingest tasks and the loop

One process serves many conversations: every event of the stream runs a task of its
own that stores one message, and a single loop answers due conversations one at a
time and delivers what is queued. Each step of the model is what happens between two
awaits that other tasks can interleave with. Storing a message takes three of them:
the row is prepared (its timestamp is taken), inserted (its id is taken from the
table's sequence) and committed (it becomes visible).

Time is in seconds. The reply row of a turn takes its id when it is committed: nobody
reads the table between the two. What a turn does to the order is in `Agent`.
-/
namespace Chatlink.Conversation

/-- The two tables of messages, each with its own sequence of ids. -/
inductive Canal where
  | whatsapp
  | email
  deriving DecidableEq, Repr

/-- `(channel, client_id, user_id)`. -/
structure Clave where
  canal : Canal
  clientId : Texto
  userId : Texto
  deriving DecidableEq, Repr

inductive Direction where
  | received
  | sent
  deriving DecidableEq, Repr

inductive Status where
  | queued
  | sent
  | failed
  deriving DecidableEq, Repr

/-- A row of `chats` or `email_chats`. The last two fields are not columns: the place
of the message on the stream, and for a reply the newest message it answers. -/
structure Fila where
  id : ℕ
  clave : Clave
  message : Texto
  direction : Direction
  isBot : Bool
  timestamp : ℕ
  status : Status := .sent
  attempts : ℕ := 0
  llegada : ℕ := 0
  contesta : ℕ := 0
  deriving DecidableEq, Repr

namespace Fila

def clientMsg (f : Fila) : Bool := f.direction = .received && !f.isBot

def salesmanMsg (f : Fila) : Bool := f.direction = .sent && !f.isBot

def enCola (f : Fila) : Bool := f.isBot && f.status = .queued

end Fila

/-- The columns of `conversation_sessions` that decide whether a turn speaks. -/
structure Sesion where
  lastAnsweredId : ℕ := 0
  botEnabled : Bool := true
  deriving DecidableEq, Repr

/-- How far a task that stores a message has come. -/
inductive Fase where
  | espera
  | preparada (message : Texto) (timestamp : ℕ)
  | insertada (message : Texto) (timestamp id : ℕ)
  deriving DecidableEq, Repr

/-- A running `handle_new_message` or `handle_new_email`. -/
structure Tarea where
  llegada : ℕ
  clave : Clave
  direction : Direction
  fase : Fase := .espera
  deriving DecidableEq, Repr

namespace Tarea

/-- The id the message has already taken. -/
def id? (t : Tarea) : Option ℕ :=
  match t.fase with
  | .insertada _ _ id => some id
  | _ => none

/-- The row the task stores. -/
def fila (t : Tarea) (message : Texto) (timestamp id : ℕ) : Fila :=
  { id := id, clave := t.clave, message := message, direction := t.direction, isBot := false
    timestamp := timestamp, llegada := t.llegada }

end Tarea

structure Config where
  delay : ℕ
  maxPendingAge : ℕ
  maxHistory : ℕ
  sendAttempts : ℕ
  /-- The window of the duplicate check. -/
  dedupe : Canal → ℕ
  /-- Whether a text calls the bot by its name. -/
  nombraBot : Texto → Bool

/-- `BOT_NAME_RE.search`: the bot is called by its name. -/
def llamaBot (U : Unicode) (name : String) (t : Texto) : Bool :=
  name ≠ "" && Regex.Re.search (.all [.wordEdge U.word, U.lit name, .wordEdge U.word]) t

/-- The settings when no environment variable is set. -/
def Config.porDefecto (U : Unicode) : Config where
  delay := 15 * 60
  maxPendingAge := 6 * 3600
  maxHistory := 60
  sendAttempts := 3
  dedupe
    | .whatsapp => 10
    | .email => 30 * 60
  nombraBot := llamaBot U "Kapa"

/-- The row after one attempt to deliver it. -/
def Fila.trasEnvio (cfg : Config) (ok : Bool) (f : Fila) : Fila :=
  { f with
    attempts := f.attempts + 1
    status := if ok then .sent
      else if cfg.sendAttempts ≤ f.attempts + 1 then .failed else f.status }

/-- How a turn ended. -/
inductive Fin where
  | contestado
  | deshabilitado
  | nadaQueContestar
  | optOut
  | noEsCliente
  | comercialContesto
  deriving DecidableEq, Repr

/-- What `run_turn` read at its start. -/
structure Lectura where
  clave : Clave
  pending : List Fila
  newestId : ℕ
  lastSalesmanId : ℕ
  enabled : Bool
  sesion : Sesion
  leidoEn : ℕ
  deriving DecidableEq, Repr

/-- `current_message`. -/
def Lectura.currentMessage (l : Lectura) : Texto :=
  Texto.strip (Texto.join ['\n'] (l.pending.map fun h => Texto.strip h.message))

/-- The log of the turns that moved the cursor. -/
structure Registro where
  clave : Clave
  pending : List Fila
  newestId : ℕ
  leidoEn : ℕ
  fin : Fin
  deriving DecidableEq, Repr

/-- The `due_conversations` query of the running tick: its time, and how many rows the
table had. -/
structure Consulta where
  now : ℕ
  vistas : ℕ
  deriving DecidableEq, Repr

/-- Where the loop is. -/
inductive Bucle where
  | reposo
  | turnos (q : Consulta) (ks : List Clave)
  | leido (q : Consulta) (l : Lectura) (ks : List Clave)
  | agente (q : Consulta) (l : Lectura) (ks : List Clave)
  | comprobado (q : Consulta) (l : Lectura) (reply : Texto) (optOut : Bool) (ks : List Clave)
  | enviando (canal : Canal) (rows : List Fila)
  | entregado (canal : Canal) (row : Fila) (rows : List Fila)
  deriving DecidableEq, Repr

structure Sistema where
  reloj : ℕ := 0
  siguiente : Canal → ℕ := fun _ => 1
  filas : List Fila := []
  sesiones : Clave → Sesion := fun _ => {}
  tareas : List Tarea := []
  llegadas : ℕ := 0
  bucle : Bucle := .reposo
  registro : List Registro := []

/-- An empty table and nothing running. -/
def inicial : Sistema := {}

/-! ## Reading the table -/

/-- The largest of a list of ids or timestamps, 0 when there is none. -/
def maximo (xs : List ℕ) : ℕ := xs.foldr max 0

namespace Sistema

variable (cfg : Config) (s : Sistema)

def conversacion (k : Clave) : List Fila := s.filas.filter fun f => f.clave = k

/-- `_load_history`. -/
def loadHistory (k : Clave) : List Fila :=
  (((s.conversacion k).insertionSort fun a b => b.id ≤ a.id).take cfg.maxHistory).reverse

/-- The rows of a conversation that the query of `due_conversations` sees. -/
def recientes (k : Clave) : List Fila :=
  (s.conversacion k).filter fun f => s.reloj ≤ f.timestamp + cfg.maxPendingAge

def due (k : Clave) : Bool :=
  let client := (s.recientes cfg k).filter Fila.clientMsg
  let salesman := (s.recientes cfg k).filter Fila.salesmanMsg
  let handled := max (s.sesiones k).lastAnsweredId (maximo (salesman.map Fila.id))
  !client.isEmpty && handled < maximo (client.map Fila.id) &&
    maximo (client.map Fila.timestamp) + cfg.delay ≤ s.reloj

/-- `due_conversations`; the source leaves the order of the groups to the database. -/
def dueConversations : List Clave := (s.filas.map Fila.clave).dedup.filter (s.due cfg)

/-- What a turn for `k` reads now. -/
def lectura (k : Clave) (enabled : Bool) : Lectura :=
  let history := s.loadHistory cfg k
  let lastSalesmanId := maximo ((history.filter Fila.salesmanMsg).map Fila.id)
  let cursor := max (s.sesiones k).lastAnsweredId lastSalesmanId
  let pending := history.filter fun h => h.clientMsg && cursor < h.id
  { clave := k, pending := pending, newestId := (pending.getLast?.map Fila.id).getD 0
    lastSalesmanId := lastSalesmanId, enabled := enabled, sesion := s.sesiones k
    leidoEn := s.reloj }

/-- The newest visible message of the salesman in the whole table. -/
def newer (k : Clave) : ℕ := maximo (((s.conversacion k).filter Fila.salesmanMsg).map Fila.id)

/-! ## Writing it -/

/-- `done(why)`: the cursor moves and the turn ends. -/
def done (q : Consulta) (l : Lectura) (ks : List Clave) (fin : Fin) : Sistema :=
  { s with
    sesiones := Function.update s.sesiones l.clave { l.sesion with lastAnsweredId := l.newestId }
    registro := s.registro ++ [⟨l.clave, l.pending, l.newestId, l.leidoEn, fin⟩]
    bucle := .turnos q ks }

/-- The reply row of a turn. -/
def filaRespuesta (l : Lectura) (reply : Texto) : Fila :=
  { id := s.siguiente l.clave.canal, clave := l.clave, message := reply, direction := .sent
    isBot := true, timestamp := s.reloj, status := .queued, contesta := l.newestId }

/-- The commit of an answered turn. -/
def commit (q : Consulta) (l : Lectura) (reply : Texto) (optOut : Bool) (ks : List Clave) :
    Sistema :=
  let s' := s.done q { l with sesion := { l.sesion with
    botEnabled := if optOut then false else l.sesion.botEnabled } } ks .contestado
  if reply.isEmpty then s'
  else { s' with
    filas := s.filas ++ [s.filaRespuesta l reply]
    siguiente := Function.update s.siguiente l.clave.canal (s.siguiente l.clave.canal + 1) }

/-- The queued replies of a table, oldest first. -/
def cola (c : Canal) : List Fila :=
  (s.filas.filter fun f => f.clave.canal = c && f.enCola).insertionSort fun a b => a.id ≤ b.id

/-- Transport retries deliver the same message twice: the row is already there. -/
def duplicada (t : Tarea) (message : Texto) : Bool :=
  (s.conversacion t.clave).any fun f => f.direction = t.direction && f.message = message &&
    s.reloj ≤ f.timestamp + cfg.dedupe t.clave.canal

end Sistema

/-! ## The steps -/

/-- The steps, with what the environment decides in each: the clock, the stream, the
outcome of lookups, recognition, the agent and the transport. -/
inductive Accion where
  | avanza (d : ℕ)
  | llega (clave : Clave) (direction : Direction)
  /-- The handler returns without storing: not a client, user disabled, an error. -/
  | abandona (i : ℕ)
  | prepara (i : ℕ) (message : Texto)
  | inserta (i : ℕ)
  | confirma (i : ℕ)
  | tick (ks : List Clave)
  | lee (enabled : Bool)
  /-- The checks before the agent; `found` is `identity.found` or a self-chat. -/
  | criba (found : Bool)
  | comprueba (reply : Texto) (optOut : Bool)
  | escribe
  /-- An exception: the loop goes on with the next turn, or gives up the tick. -/
  | falla
  | carga
  | entrega
  | anota (ok : Bool)
  | duerme
  | reinicia
  deriving DecidableEq, Repr

/-- The tasks that store messages. -/
def pasoTarea (cfg : Config) (s : Sistema) : Accion → Option Sistema
  | .llega k d =>
    some { s with
      tareas := s.tareas ++ [{ llegada := s.llegadas, clave := k, direction := d }]
      llegadas := s.llegadas + 1 }
  | .abandona i => if i < s.tareas.length then some { s with tareas := s.tareas.eraseIdx i } else none
  | .prepara i message =>
    match s.tareas[i]? with
    | some t =>
      if t.fase = .espera then
        if s.duplicada cfg t message then some { s with tareas := s.tareas.eraseIdx i }
        else some { s with tareas := s.tareas.set i { t with fase := .preparada message s.reloj } }
      else none
    | none => none
  | .inserta i =>
    match s.tareas[i]? with
    | some t =>
      match t.fase with
      | .preparada message ts =>
        let id := s.siguiente t.clave.canal
        some { s with
          tareas := s.tareas.set i { t with fase := .insertada message ts id }
          siguiente := Function.update s.siguiente t.clave.canal (id + 1) }
      | _ => none
    | none => none
  | .confirma i =>
    match s.tareas[i]? with
    | some t =>
      match t.fase with
      | .insertada message ts id =>
        some { s with
          tareas := s.tareas.eraseIdx i
          filas := s.filas ++ [t.fila message ts id] }
      | _ => none
    | none => none
  | _ => none

/-- `run_turn`. -/
def pasoTurno (cfg : Config) (s : Sistema) : Accion → Option Sistema
  | .lee enabled =>
    match s.bucle with
    | .turnos q (k :: ks) =>
      let l := s.lectura cfg k enabled
      if l.pending.isEmpty then some { s with bucle := .turnos q ks }
      else some { s with bucle := .leido q l ks }
    | _ => none
  | .criba found =>
    match s.bucle with
    | .leido q l ks =>
      if !l.enabled then some (s.done q l ks .deshabilitado)
      else if l.currentMessage.isEmpty then some (s.done q l ks .nadaQueContestar)
      else if !l.sesion.botEnabled && !cfg.nombraBot l.currentMessage then
        some (s.done q l ks .optOut)
      else
        -- a client who calls the bot by name is no longer opted out
        let l := { l with sesion := { l.sesion with botEnabled := true } }
        if !found then some (s.done q l ks .noEsCliente)
        else some { s with bucle := .agente q l ks }
    | _ => none
  | .comprueba reply optOut =>
    match s.bucle with
    | .agente q l ks =>
      if l.lastSalesmanId < s.newer l.clave then some (s.done q l ks .comercialContesto)
      else some { s with bucle := .comprobado q l reply optOut ks }
    | _ => none
  | .escribe =>
    match s.bucle with
    | .comprobado q l reply optOut ks => some (s.commit q l reply optOut ks)
    | _ => none
  | _ => none

/-- `tick` and `send_queued`. -/
def pasoBucle (cfg : Config) (s : Sistema) : Accion → Option Sistema
  | .tick ks =>
    match s.bucle with
    | .reposo =>
      if ks.Perm (s.dueConversations cfg) then
        some { s with bucle := .turnos ⟨s.reloj, s.filas.length⟩ ks }
      else none
    | _ => none
  | .falla =>
    match s.bucle with
    | .turnos q (_ :: ks) => some { s with bucle := .turnos q ks }
    | .leido q _ ks => some { s with bucle := .turnos q ks }
    | .agente q _ ks => some { s with bucle := .turnos q ks }
    | .comprobado q _ _ _ ks => some { s with bucle := .turnos q ks }
    | .enviando _ _ => some { s with bucle := .reposo }
    | .entregado _ _ _ => some { s with bucle := .reposo }
    | _ => none
  | .carga =>
    match s.bucle with
    | .turnos _ [] => some { s with bucle := .enviando .whatsapp (s.cola .whatsapp) }
    | .enviando .whatsapp [] => some { s with bucle := .enviando .email (s.cola .email) }
    | _ => none
  | .entrega =>
    match s.bucle with
    | .enviando c (row :: rows) => some { s with bucle := .entregado c row rows }
    | _ => none
  | .anota ok =>
    match s.bucle with
    | .entregado c row rows =>
      some { s with
        filas := s.filas.map fun f =>
          if f.clave.canal = c ∧ f.id = row.id then f.trasEnvio cfg ok else f
        bucle := .enviando c rows }
    | _ => none
  | .duerme =>
    match s.bucle with
    | .enviando .email [] => some { s with bucle := .reposo }
    | _ => none
  | _ => none

def paso (cfg : Config) (s : Sistema) (a : Accion) : Option Sistema :=
  match a with
  | .avanza d => some { s with reloj := s.reloj + d }
  | .reinicia => some { s with tareas := [], bucle := .reposo }
  | a => (pasoTarea cfg s a).or ((pasoTurno cfg s a).or (pasoBucle cfg s a))

end Chatlink.Conversation
