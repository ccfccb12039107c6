import Chatlink.Conversation.System

/-!
# From the mailbox to the mails table

A listener thread polls the folders of one salesman's mailbox and keeps, for each folder,
the last UID it has seen. Each mail it fetches starts a task that writes the UID of the
mail into the user row, then puts the mail through the filters and stores it. The row
holds the UIDs of all folders as one value: a task reads it, changes its own folder and
writes the whole of it back. A listener that starts takes its UIDs from the row.

A folder is the list of the mails that arrived, the first one with UID 1. The place where
the coverage of a folder started and the mails stored or dropped are kept to say what
happened to each mail; the program reads neither.
-/
namespace Chatlink.Mail

open Conversation (Direction)

abbrev Carpeta := String

/-- `imap_uids` and `_last_uid`. -/
abbrev Uids := Carpeta → Option ℕ

/-- `kapa` says whether the mail has the `X-Kapa` header; the addresses are in lower case. -/
structure Correo where
  kapa : Bool
  fromEmail : String
  toEmail : String
  deriving DecidableEq, Repr

/-- Why a mail is not stored. -/
inductive Motivo where
  | disabled
  | notClient
  | own
  | duplicate
  deriving DecidableEq, Repr

/-- What a task reads after it has written the cursor. The search in SAGE may fail. -/
structure Respuestas where
  enabled : Bool
  sage : Option Bool
  duplicated : Bool
  deriving DecidableEq, Repr

inductive Fase where
  | espera
  | leida (uids : Uids)
  | anotada
  | admitida

/-- A run of `handle_new_email`. -/
structure Tarea where
  carpeta : Carpeta
  uid : ℕ
  direction : Direction
  correo : Correo
  fase : Fase := .espera

/-- A run of `_poll_folder`, after the search. -/
structure Sondeo where
  carpeta : Carpeta
  direction : Direction
  uids : List ℕ
  porLeer : List ℕ

/-- `_MailboxListener`. -/
structure Oyente where
  running : Bool := true
  lastUid : Uids
  sentFolder : Option Carpeta := none
  sondeo : Option Sondeo := none

structure Buzon where
  carpetas : Carpeta → List Correo := fun _ => []
  inicio : Uids := fun _ => none
  imapUids : Uids := fun _ => none
  oyentes : List Oyente := []
  tareas : List Tarea := []
  almacenados : List (Carpeta × ℕ) := []
  descartados : List ((Carpeta × ℕ) × Motivo) := []

inductive AccionBuzon where
  | llega (carpeta : Carpeta) (m : Correo)
  | arranca
  | para
  /-- The process dies. -/
  | cae
  | descubre (j : ℕ) (name : Carpeta)
  /-- A poll starts: whether the folder tells its next UID, and the answer to the search. -/
  | sondea (j : ℕ) (direction : Direction) (uidnext : Bool) (raw : List ℕ)
  /-- The next mail of the poll is fetched and parsed, or is not. -/
  | recoge (j : ℕ) (ok : Bool)
  | excepcion (j : ℕ)
  | termina (j : ℕ)
  | leeFila (i : ℕ)
  | anota (i : ℕ)
  | filtra (i : ℕ) (r : Respuestas)
  | almacena (i : ℕ)
  /-- A task raises, or finds no row for its mailbox. -/
  | abandona (i : ℕ)
  deriving DecidableEq, Repr

def Uids.con (uids : Uids) (carpeta : Carpeta) (uid : ℕ) : Uids :=
  fun k => if k = carpeta then some uid else uids k

/-- INBOX holds what was received, the folder found for it what was sent. -/
def Oyente.carpeta? (o : Oyente) : Direction → Option Carpeta
  | .received => some "INBOX"
  | .sent => o.sentFolder

/-- Where a poll starts: a folder seen for the first time is taken from its end, or from 0
when that is not known. -/
def Oyente.last (o : Oyente) (carpeta : Carpeta) (fin : ℕ) (uidnext : Bool) : ℕ :=
  (o.lastUid carpeta).getD (if uidnext then fin else 0)

/-- The answer to the search is filtered, for it always holds the newest mail. -/
def Oyente.busca (o : Oyente) (carpeta : Carpeta) (direction : Direction) (last : ℕ)
    (raw : List ℕ) : Oyente :=
  let uids := raw.filter fun u => last < u
  { o with
    lastUid := o.lastUid.con carpeta last
    sondeo := if uids.isEmpty then none else some ⟨carpeta, direction, uids, uids⟩ }

theorem Oyente.busca_sondeo {o : Oyente} {carpeta : Carpeta} {direction : Direction} {last : ℕ}
    {raw : List ℕ} {p : Sondeo} (h : (o.busca carpeta direction last raw).sondeo = some p) :
    p = ⟨carpeta, direction, raw.filter fun u => last < u, raw.filter fun u => last < u⟩ := by
  simp only [Oyente.busca] at h
  split at h
  · cases h
  · exact (Option.some.inj h).symm

def Tarea.esSelf (mailbox : String) (t : Tarea) : Bool :=
  t.correo.fromEmail = mailbox && t.correo.toEmail = mailbox

/-- The checks of `handle_new_email`. Mail to oneself counts as received and is not looked
up; a search that fails lets the mail through. -/
def Tarea.filtro (mailbox : String) (t : Tarea) (r : Respuestas) : Option Motivo :=
  if !r.enabled then some .disabled
  else if t.direction = .received && !t.esSelf mailbox && r.sage = some false then some .notClient
  else if r.duplicated then some .duplicate
  else none

/-- The new value of the row. A row that would not change is not written. -/
def anotaUid (leidas fila : Uids) (carpeta : Carpeta) (uid : ℕ) : Uids :=
  if (leidas carpeta).any fun v => uid ≤ v then fila
  else leidas.con carpeta (max ((leidas carpeta).getD 0) uid)

namespace Buzon

variable (s : Buzon)

/-- The first part of `_poll_folder`. -/
def pollFolder (j : ℕ) (o : Oyente) (carpeta : Carpeta) (direction : Direction) (uidnext : Bool)
    (raw : List ℕ) : Buzon :=
  let fin := (s.carpetas carpeta).length
  { s with
    inicio := s.inicio.con carpeta ((s.inicio carpeta).getD fin)
    oyentes := s.oyentes.set j (o.busca carpeta direction (o.last carpeta fin uidnext) raw) }

/-- What the fetched mail becomes: the program's own mail goes no further. -/
def emit (p : Sondeo) (uid : ℕ) (m : Correo) : Buzon :=
  if m.kapa then { s with descartados := s.descartados ++ [((p.carpeta, uid), .own)] }
  else { s with tareas := s.tareas ++
    [{ carpeta := p.carpeta, uid := uid, direction := p.direction, correo := m }] }

end Buzon

/-- The steps of the listeners. -/
def pasoOyente (s : Buzon) (j : ℕ) (o : Oyente) : AccionBuzon → Option Buzon
  | .descubre _ name =>
    some { s with oyentes := s.oyentes.set j { o with sentFolder := o.sentFolder.or (some name) } }
  | .sondea _ direction uidnext raw =>
    match o.sondeo, o.carpeta? direction with
    | none, some carpeta =>
      if raw.all fun u => 0 < u && u ≤ (s.carpetas carpeta).length then
        some (s.pollFolder j o carpeta direction uidnext raw)
      else none
    | _, _ => none
  | .recoge _ ok =>
    match o.sondeo with
    | some ⟨carpeta, direction, uids, uid :: porLeer⟩ =>
      let p : Sondeo := ⟨carpeta, direction, uids, porLeer⟩
      let s' := { s with oyentes := s.oyentes.set j { o with sondeo := some p } }
      if ok then ((s.carpetas carpeta)[uid - 1]?).map (s'.emit p uid) else some s'
    | _ => none
  | .excepcion _ =>
    match o.sondeo with
    | some _ => some { s with oyentes := s.oyentes.set j { o with sondeo := none } }
    | none => none
  | .termina _ =>
    match o.sondeo with
    | some ⟨carpeta, _, uids, []⟩ =>
      some { s with oyentes := s.oyentes.set j { o with
        lastUid := o.lastUid.con carpeta (max ((o.lastUid carpeta).getD 0) (uids.foldr max 0))
        sondeo := none } }
    | _ => none
  | _ => none

/-- The steps of the tasks. -/
def pasoTarea (mailbox : String) (s : Buzon) (i : ℕ) (t : Tarea) : AccionBuzon → Option Buzon
  | .leeFila _ =>
    match t.fase with
    | .espera => some { s with tareas := s.tareas.set i { t with fase := .leida s.imapUids } }
    | _ => none
  | .anota _ =>
    match t.fase with
    | .leida uids => some { s with
        imapUids := anotaUid uids s.imapUids t.carpeta t.uid
        tareas := s.tareas.set i { t with fase := .anotada } }
    | _ => none
  | .filtra _ r =>
    match t.fase with
    | .anotada =>
      match t.filtro mailbox r with
      | some m => some { s with
          tareas := s.tareas.eraseIdx i
          descartados := s.descartados ++ [((t.carpeta, t.uid), m)] }
      | none => some { s with tareas := s.tareas.set i { t with fase := .admitida } }
    | _ => none
  | .almacena _ =>
    match t.fase with
    | .admitida => some { s with
        tareas := s.tareas.eraseIdx i
        almacenados := s.almacenados ++ [(t.carpeta, t.uid)] }
    | _ => none
  | .abandona _ => some { s with tareas := s.tareas.eraseIdx i }
  | _ => none

def pasoBuzon (mailbox : String) (s : Buzon) (a : AccionBuzon) : Option Buzon :=
  match a with
  | .llega carpeta m =>
    some { s with carpetas := fun k => if k = carpeta then s.carpetas k ++ [m] else s.carpetas k }
  | .arranca =>
    if s.oyentes.any Oyente.running then none
    else some { s with oyentes := s.oyentes ++ [{ lastUid := s.imapUids }] }
  | .para => some { s with oyentes := s.oyentes.map fun o => { o with running := false } }
  | .cae => some { s with oyentes := [], tareas := [] }
  | .descubre j _ | .sondea j _ _ _ | .recoge j _ | .excepcion j | .termina j =>
    (s.oyentes[j]?).bind fun o => pasoOyente s j o a
  | .leeFila i | .anota i | .filtra i _ | .almacena i | .abandona i =>
    (s.tareas[i]?).bind fun t => pasoTarea mailbox s i t a

/-! ## What one step does -/

/-- The steps, each with what it found. -/
inductive Cambio (mailbox : String) (s : Buzon) : AccionBuzon → Buzon → Prop
  | llega (carpeta : Carpeta) (m : Correo) : Cambio mailbox s (.llega carpeta m)
      { s with carpetas := fun k => if k = carpeta then s.carpetas k ++ [m] else s.carpetas k }
  | arranca : Cambio mailbox s .arranca { s with oyentes := s.oyentes ++ [{ lastUid := s.imapUids }] }
  | para : Cambio mailbox s .para
      { s with oyentes := s.oyentes.map fun o => { o with running := false } }
  | cae : Cambio mailbox s .cae { s with oyentes := [], tareas := [] }
  | descubre {j : ℕ} {o : Oyente} (name : Carpeta) (ho : s.oyentes[j]? = some o) :
      Cambio mailbox s (.descubre j name)
        { s with oyentes := s.oyentes.set j { o with sentFolder := o.sentFolder.or (some name) } }
  | sondea {j : ℕ} {o : Oyente} {carpeta : Carpeta} {raw : List ℕ} (direction : Direction)
      (uidnext : Bool) (ho : s.oyentes[j]? = some o) (hc : o.carpeta? direction = some carpeta)
      (hraw : ∀ u ∈ raw, 0 < u ∧ u ≤ (s.carpetas carpeta).length) :
      Cambio mailbox s (.sondea j direction uidnext raw)
        (s.pollFolder j o carpeta direction uidnext raw)
  | falla {j : ℕ} {o : Oyente} {p : Sondeo} {uid : ℕ} {porLeer : List ℕ}
      (ho : s.oyentes[j]? = some o) (hp : o.sondeo = some p) (hl : p.porLeer = uid :: porLeer) :
      Cambio mailbox s (.recoge j false) { s with
        oyentes := s.oyentes.set j { o with sondeo := some { p with porLeer := porLeer } } }
  | propio {j : ℕ} {o : Oyente} {p : Sondeo} {uid : ℕ} {porLeer : List ℕ} {m : Correo}
      (ho : s.oyentes[j]? = some o) (hp : o.sondeo = some p) (hl : p.porLeer = uid :: porLeer)
      (hm : (s.carpetas p.carpeta)[uid - 1]? = some m) (hk : m.kapa = true) :
      Cambio mailbox s (.recoge j true) { s with
        oyentes := s.oyentes.set j { o with sondeo := some { p with porLeer := porLeer } }
        descartados := s.descartados ++ [((p.carpeta, uid), .own)] }
  | empieza {j : ℕ} {o : Oyente} {p : Sondeo} {uid : ℕ} {porLeer : List ℕ} {m : Correo}
      (ho : s.oyentes[j]? = some o) (hp : o.sondeo = some p) (hl : p.porLeer = uid :: porLeer)
      (hm : (s.carpetas p.carpeta)[uid - 1]? = some m) (hk : m.kapa = false) :
      Cambio mailbox s (.recoge j true) { s with
        oyentes := s.oyentes.set j { o with sondeo := some { p with porLeer := porLeer } }
        tareas := s.tareas ++
          [{ carpeta := p.carpeta, uid := uid, direction := p.direction, correo := m }] }
  | excepcion {j : ℕ} {o : Oyente} (ho : s.oyentes[j]? = some o) :
      Cambio mailbox s (.excepcion j)
        { s with oyentes := s.oyentes.set j { o with sondeo := none } }
  | termina {j : ℕ} {o : Oyente} {p : Sondeo} (ho : s.oyentes[j]? = some o)
      (hp : o.sondeo = some p) (hl : p.porLeer = []) :
      Cambio mailbox s (.termina j) { s with oyentes := s.oyentes.set j { o with
        lastUid := o.lastUid.con p.carpeta
          (max ((o.lastUid p.carpeta).getD 0) (p.uids.foldr max 0))
        sondeo := none } }
  | leeFila {i : ℕ} {t : Tarea} (ht : s.tareas[i]? = some t) (hf : t.fase = .espera) :
      Cambio mailbox s (.leeFila i)
        { s with tareas := s.tareas.set i { t with fase := .leida s.imapUids } }
  | anota {i : ℕ} {t : Tarea} {uids : Uids} (ht : s.tareas[i]? = some t)
      (hf : t.fase = .leida uids) : Cambio mailbox s (.anota i) { s with
        imapUids := anotaUid uids s.imapUids t.carpeta t.uid
        tareas := s.tareas.set i { t with fase := .anotada } }
  | descarta {i : ℕ} {t : Tarea} {r : Respuestas} {m : Motivo} (ht : s.tareas[i]? = some t)
      (hf : t.fase = .anotada) (hm : t.filtro mailbox r = some m) :
      Cambio mailbox s (.filtra i r) { s with
        tareas := s.tareas.eraseIdx i
        descartados := s.descartados ++ [((t.carpeta, t.uid), m)] }
  | admite {i : ℕ} {t : Tarea} {r : Respuestas} (ht : s.tareas[i]? = some t)
      (hf : t.fase = .anotada) (hm : t.filtro mailbox r = none) :
      Cambio mailbox s (.filtra i r)
        { s with tareas := s.tareas.set i { t with fase := .admitida } }
  | almacena {i : ℕ} {t : Tarea} (ht : s.tareas[i]? = some t) (hf : t.fase = .admitida) :
      Cambio mailbox s (.almacena i) { s with
        tareas := s.tareas.eraseIdx i
        almacenados := s.almacenados ++ [(t.carpeta, t.uid)] }
  | abandona {i : ℕ} {t : Tarea} (ht : s.tareas[i]? = some t) :
      Cambio mailbox s (.abandona i) { s with tareas := s.tareas.eraseIdx i }

section Inversion

variable {mailbox : String} {s s' : Buzon} {a : AccionBuzon} {i j : ℕ} {o : Oyente} {t : Tarea}

theorem cambio_recoge {ok : Bool} (ho : s.oyentes[j]? = some o)
    (h : pasoOyente s j o (.recoge j ok) = some s') : Cambio mailbox s (.recoge j ok) s' := by
  simp only [pasoOyente] at h
  split at h
  · next carpeta direction uids uid porLeer hp =>
    cases ok with
    | false =>
      obtain rfl := Option.some.inj h
      exact .falla ho hp rfl
    | true =>
      obtain ⟨m, hm, rfl⟩ := Option.map_eq_some_iff.mp h
      unfold Buzon.emit
      split
      · next hk => exact .propio ho hp rfl hm hk
      · next hk => exact .empieza ho hp rfl hm (by simpa using hk)
  · cases h

theorem cambio_sondea {direction : Direction} {uidnext : Bool} {raw : List ℕ}
    (ho : s.oyentes[j]? = some o)
    (h : pasoOyente s j o (.sondea j direction uidnext raw) = some s') :
    Cambio mailbox s (.sondea j direction uidnext raw) s' := by
  simp only [pasoOyente] at h
  split at h
  · next carpeta _ hc =>
    split at h
    · next hraw =>
      obtain rfl := Option.some.inj h
      refine .sondea direction uidnext ho hc fun u hu => ?_
      simpa using List.all_eq_true.mp hraw u hu
    · cases h
  · cases h

theorem cambio_tarea (ht : s.tareas[i]? = some t)
    (ha : a = .leeFila i ∨ a = .anota i ∨ (∃ r, a = .filtra i r) ∨ a = .almacena i ∨ a = .abandona i)
    (h : pasoTarea mailbox s i t a = some s') : Cambio mailbox s a s' := by
  rcases ha with rfl | rfl | ⟨r, rfl⟩ | rfl | rfl <;> simp only [pasoTarea] at h
  · split at h
    · next hf =>
      obtain rfl := Option.some.inj h
      exact .leeFila ht hf
    · cases h
  · split at h
    · next uids hf =>
      obtain rfl := Option.some.inj h
      exact .anota ht hf
    · cases h
  · split at h
    · next hf =>
      split at h
      · next m hm =>
        obtain rfl := Option.some.inj h
        exact .descarta ht hf hm
      · next hm =>
        obtain rfl := Option.some.inj h
        exact .admite ht hf hm
    · cases h
  · split at h
    · next hf =>
      obtain rfl := Option.some.inj h
      exact .almacena ht hf
    · cases h
  · obtain rfl := Option.some.inj h
    exact .abandona ht

theorem pasoBuzon_cases (h : pasoBuzon mailbox s a = some s') : Cambio mailbox s a s' := by
  cases a with
  | llega carpeta m =>
    obtain rfl := Option.some.inj h
    exact .llega carpeta m
  | arranca =>
    simp only [pasoBuzon] at h
    split at h
    · cases h
    · obtain rfl := Option.some.inj h
      exact .arranca
  | para =>
    obtain rfl := Option.some.inj h
    exact .para
  | cae =>
    obtain rfl := Option.some.inj h
    exact .cae
  | descubre j name =>
    obtain ⟨o, ho, h⟩ := Option.bind_eq_some_iff.mp h
    obtain rfl := Option.some.inj h
    exact .descubre name ho
  | sondea j direction uidnext raw =>
    obtain ⟨o, ho, h⟩ := Option.bind_eq_some_iff.mp h
    exact cambio_sondea ho h
  | recoge j ok =>
    obtain ⟨o, ho, h⟩ := Option.bind_eq_some_iff.mp h
    exact cambio_recoge ho h
  | excepcion j =>
    obtain ⟨o, ho, h⟩ := Option.bind_eq_some_iff.mp h
    simp only [pasoOyente] at h
    split at h
    · obtain rfl := Option.some.inj h
      exact .excepcion ho
    · cases h
  | termina j =>
    obtain ⟨o, ho, h⟩ := Option.bind_eq_some_iff.mp h
    simp only [pasoOyente] at h
    split at h
    · next hp =>
      obtain rfl := Option.some.inj h
      exact .termina ho hp rfl
    · cases h
  | leeFila i =>
    obtain ⟨t, ht, h⟩ := Option.bind_eq_some_iff.mp h
    exact cambio_tarea ht (.inl rfl) h
  | anota i =>
    obtain ⟨t, ht, h⟩ := Option.bind_eq_some_iff.mp h
    exact cambio_tarea ht (.inr (.inl rfl)) h
  | filtra i r =>
    obtain ⟨t, ht, h⟩ := Option.bind_eq_some_iff.mp h
    exact cambio_tarea ht (.inr (.inr (.inl ⟨r, rfl⟩))) h
  | almacena i =>
    obtain ⟨t, ht, h⟩ := Option.bind_eq_some_iff.mp h
    exact cambio_tarea ht (.inr (.inr (.inr (.inl rfl)))) h
  | abandona i =>
    obtain ⟨t, ht, h⟩ := Option.bind_eq_some_iff.mp h
    exact cambio_tarea ht (.inr (.inr (.inr (.inr rfl)))) h

end Inversion

end Chatlink.Mail
