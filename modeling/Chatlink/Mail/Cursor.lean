import Chatlink.Lib.Lists
import Chatlink.Lib.Transition
import Chatlink.Mail.Mailbox

/-!
# What the mail cursor promises

The UID of a folder in the user row is where the next listener starts. Read as a promise it
says that the mail up to it is dealt with. A task writes its UID before it has done
anything with its mail, so the promise is broken by the first task of a new mail that gets
that far, and it stays broken if the task goes no further.

What the row does promise, in runs without accidents, is that the mail up to it is stored,
dropped or in the hands of a task.
-/
namespace Chatlink.Mail

open Conversation (Direction)
open Lists Transition

/-- The mail of a folder that arrived after its coverage started, up to the cursor, is stored
or was dropped. -/
def CursorSound (s : Buzon) : Prop :=
  ∀ carpeta b v u, s.inicio carpeta = some b → s.imapUids carpeta = some v → b < u → u ≤ v →
    u ≤ (s.carpetas carpeta).length →
    (carpeta, u) ∈ s.almacenados ∨ ∃ m, ((carpeta, u), m) ∈ s.descartados

/-- The tasks that write the cursor are those of mail that was there when the coverage of its
folder started. -/
def anterior (s : Buzon) : AccionBuzon → Bool
  | .anota i =>
    match s.tareas[i]? with
    | none => true
    | some t => (s.inicio t.carpeta).any fun b => t.uid ≤ b
  | _ => true

section Steps

variable {mailbox : String} {s s' : Buzon} {a : AccionBuzon}

/-- Folders grow and the start of their coverage stays. -/
structure Crece (s s' : Buzon) : Prop where
  inicio : ∀ carpeta b, s.inicio carpeta = some b → s'.inicio carpeta = some b
  carpetas : ∀ carpeta, s.carpetas carpeta <+: s'.carpetas carpeta

theorem crece_of_eq (hi : s'.inicio = s.inicio) (hc : s'.carpetas = s.carpetas) : Crece s s' where
  inicio carpeta b h := by rwa [hi]
  carpetas carpeta := by rw [hc]

theorem crece_llega (carpeta : Carpeta) (m : Correo) :
    Crece s { s with carpetas := fun k => if k = carpeta then s.carpetas k ++ [m] else s.carpetas k } where
  inicio _ _ h := h
  carpetas k := by
    dsimp only
    split
    · exact List.prefix_append _ _
    · exact List.prefix_refl _

theorem inicio_pollFolder (j : ℕ) (o : Oyente) (carpeta : Carpeta) (direction : Direction)
    (uidnext : Bool) (raw : List ℕ) :
    (s.pollFolder j o carpeta direction uidnext raw).inicio carpeta =
      some ((s.inicio carpeta).getD (s.carpetas carpeta).length) := if_pos rfl

theorem crece_pollFolder (j : ℕ) (o : Oyente) (carpeta : Carpeta) (direction : Direction)
    (uidnext : Bool) (raw : List ℕ) :
    Crece s (s.pollFolder j o carpeta direction uidnext raw) where
  inicio k b h := by
    by_cases hk : k = carpeta
    · subst hk
      rw [inicio_pollFolder, h, Option.getD_some]
    · exact (if_neg hk).trans h
  carpetas _ := List.prefix_refl _

theorem crece_paso (h : Cambio mailbox s a s') : Crece s s' := by
  cases h with
  | llega carpeta m => exact crece_llega carpeta m
  | sondea direction uidnext ho hc hraw => exact crece_pollFolder ..
  | _ => exact crece_of_eq rfl rfl

theorem Crece.correo (h : Crece s s') {carpeta : Carpeta} {n : ℕ} {m : Correo}
    (hm : (s.carpetas carpeta)[n]? = some m) : (s'.carpetas carpeta)[n]? = some m := by
  obtain ⟨ms, hms⟩ := h.carpetas carpeta
  have hlt : n < (s.carpetas carpeta).length := (List.getElem?_eq_some_iff.mp hm).1
  rw [← hms, List.getElem?_append_left hlt, hm]

/-! ## Before the first new mail reaches the cursor -/

/-- A UID that was given before the coverage of its folder started. -/
def Antes (s : Buzon) (carpeta : Carpeta) (uid : ℕ) : Prop :=
  ∃ b, s.inicio carpeta = some b ∧ uid ≤ b

theorem Antes.mono {carpeta : Carpeta} {uid : ℕ} (h : Antes s carpeta uid) (hc : Crece s s') :
    Antes s' carpeta uid := by
  obtain ⟨b, hb, hle⟩ := h
  exact ⟨b, hc.inicio carpeta b hb, hle⟩

/-- A task has someone else's mail of a covered folder; what it has read or written of the
cursor was there before the coverage. -/
structure TareaAntes (s : Buzon) (t : Tarea) : Prop where
  inicio : ∃ b, s.inicio t.carpeta = some b
  pos : 0 < t.uid
  correo : (s.carpetas t.carpeta)[t.uid - 1]? = some t.correo
  ajeno : t.correo.kapa = false
  leidas : ∀ uids, t.fase = .leida uids → ∀ carpeta v, uids carpeta = some v → Antes s carpeta v
  anotada : t.fase = .anotada ∨ t.fase = .admitida → Antes s t.carpeta t.uid

def SondeoAntes (s : Buzon) (p : Sondeo) : Prop :=
  (∃ b, s.inicio p.carpeta = some b) ∧ ∀ u ∈ p.porLeer, 0 < u

def DescartadoAntes (s : Buzon) (x : Carpeta × ℕ) : Prop :=
  Antes s x.1 x.2 ∨ ∃ m, (s.carpetas x.1)[x.2 - 1]? = some m ∧ m.kapa = true

/-- Nothing that came after the coverage started has reached the cursor, so nothing of it is
stored, and only own mail of it is dropped. -/
structure TodoAntes (s : Buzon) : Prop where
  cursor : ∀ carpeta v, s.imapUids carpeta = some v → Antes s carpeta v
  tareas : ∀ t ∈ s.tareas, TareaAntes s t
  sondeos : ∀ o ∈ s.oyentes, ∀ p, o.sondeo = some p → SondeoAntes s p
  almacenados : ∀ x ∈ s.almacenados, Antes s x.1 x.2
  descartados : ∀ x ∈ s.descartados, DescartadoAntes s x.1

theorem todoAntes_inicial : TodoAntes {} where
  cursor carpeta v h := by cases h
  tareas t h := by cases h
  sondeos o h := by cases h
  almacenados x h := by cases h
  descartados x h := by cases h

theorem TareaAntes.mono {t : Tarea} (h : TareaAntes s t) (hc : Crece s s') : TareaAntes s' t where
  inicio := by
    obtain ⟨b, hb⟩ := h.inicio
    exact ⟨b, hc.inicio _ b hb⟩
  pos := h.pos
  correo := hc.correo h.correo
  ajeno := h.ajeno
  leidas uids hf carpeta v hv := (h.leidas uids hf carpeta v hv).mono hc
  anotada hf := (h.anotada hf).mono hc

theorem SondeoAntes.mono {p : Sondeo} (h : SondeoAntes s p) (hc : Crece s s') :
    SondeoAntes s' p := by
  obtain ⟨⟨b, hb⟩, hpos⟩ := h
  exact ⟨⟨b, hc.inicio _ b hb⟩, hpos⟩

theorem DescartadoAntes.mono {x : Carpeta × ℕ} (h : DescartadoAntes s x) (hc : Crece s s') :
    DescartadoAntes s' x := by
  rcases h with h | ⟨m, hm, hk⟩
  · exact Or.inl (h.mono hc)
  · exact Or.inr ⟨m, hc.correo hm, hk⟩

/-- What a step has to say: only what is new in the state after it. -/
theorem TodoAntes.paso (h : TodoAntes s) (hc : Crece s s')
    (hcur : ∀ carpeta v, s'.imapUids carpeta = some v → Antes s carpeta v)
    (htar : ∀ t ∈ s'.tareas, t ∈ s.tareas ∨ TareaAntes s' t)
    (hson : ∀ o ∈ s'.oyentes, (∃ o' ∈ s.oyentes, o'.sondeo = o.sondeo) ∨
      ∀ p, o.sondeo = some p → SondeoAntes s' p)
    (halm : ∀ x ∈ s'.almacenados, x ∈ s.almacenados ∨ Antes s x.1 x.2)
    (hdes : ∀ x ∈ s'.descartados, x ∈ s.descartados ∨ DescartadoAntes s x.1) : TodoAntes s' where
  cursor carpeta v hv := (hcur carpeta v hv).mono hc
  tareas t ht := (htar t ht).elim (fun hold => (h.tareas t hold).mono hc) id
  sondeos o ho p hp := by
    rcases hson o ho with ⟨o', ho', heq⟩ | hnew
    · exact (h.sondeos o' ho' p (heq.trans hp)).mono hc
    · exact hnew p hp
  almacenados x hx := ((halm x hx).elim (h.almacenados x) id).mono hc
  descartados x hx := ((hdes x hx).elim (h.descartados x) id).mono hc

/-- A step that changes the listeners. -/
theorem TodoAntes.con_oyentes {os : List Oyente} (h : TodoAntes s)
    (hos : ∀ o ∈ os, (∃ o' ∈ s.oyentes, o'.sondeo = o.sondeo) ∨
      ∀ p, o.sondeo = some p → SondeoAntes s p) : TodoAntes { s with oyentes := os } :=
  h.paso (crece_of_eq rfl rfl) h.cursor (fun _ ht => Or.inl ht) hos (fun _ hx => Or.inl hx)
    fun _ hx => Or.inl hx

/-- A step that changes one of them. -/
theorem TodoAntes.con_oyente {j : ℕ} {o : Oyente} (h : TodoAntes s)
    (ho : ∀ p, o.sondeo = some p → SondeoAntes s p) :
    TodoAntes { s with oyentes := s.oyentes.set j o } := by
  refine h.con_oyentes fun x hx => ?_
  rcases List.mem_or_eq_of_mem_set hx with hx | rfl
  · exact Or.inl ⟨x, hx, rfl⟩
  · exact Or.inr ho

/-- A step that changes the tasks. -/
theorem TodoAntes.con_tareas {ts : List Tarea} (h : TodoAntes s)
    (hts : ∀ t ∈ ts, t ∈ s.tareas ∨ TareaAntes s t) : TodoAntes { s with tareas := ts } := by
  refine h.paso (crece_of_eq rfl rfl) h.cursor (fun t ht => ?_) (fun o ho => Or.inl ⟨o, ho, rfl⟩)
    (fun _ hx => Or.inl hx) fun _ hx => Or.inl hx
  exact (hts t ht).imp_right fun hnew => hnew.mono (crece_of_eq rfl rfl)

theorem TodoAntes.sin_tarea {i : ℕ} (h : TodoAntes s) :
    TodoAntes { s with tareas := s.tareas.eraseIdx i } :=
  h.con_tareas fun _ ht => Or.inl (List.mem_of_mem_eraseIdx ht)

/-- A task goes on to a phase that shows nothing new. -/
theorem TodoAntes.con_fase {i : ℕ} {t : Tarea} {f : Fase} (h : TodoAntes s)
    (ht : s.tareas[i]? = some t)
    (hl : ∀ uids, f = .leida uids → ∀ carpeta v, uids carpeta = some v → Antes s carpeta v)
    (ha : f = .anotada ∨ f = .admitida → Antes s t.carpeta t.uid) :
    TodoAntes { s with tareas := s.tareas.set i { t with fase := f } } := by
  refine h.con_tareas fun t' ht' => ?_
  rcases List.mem_or_eq_of_mem_set ht' with ht' | rfl
  · exact Or.inl ht'
  · have hold := h.tareas t (List.mem_of_getElem? ht)
    exact Or.inr ⟨hold.inicio, hold.pos, hold.correo, hold.ajeno, hl, ha⟩

theorem TodoAntes.con_descartado {x : Carpeta × ℕ} {m : Motivo} (h : TodoAntes s)
    (hx : DescartadoAntes s x) : TodoAntes { s with descartados := s.descartados ++ [(x, m)] } := by
  refine h.paso (crece_of_eq rfl rfl) h.cursor (fun _ ht => Or.inl ht)
    (fun o ho => Or.inl ⟨o, ho, rfl⟩) (fun _ hx => Or.inl hx) fun y hy => ?_
  rcases List.mem_append.mp hy with hy | hy
  · exact Or.inl hy
  · obtain rfl := List.mem_singleton.mp hy
    exact Or.inr hx

theorem TodoAntes.con_almacenado {x : Carpeta × ℕ} (h : TodoAntes s) (hx : Antes s x.1 x.2) :
    TodoAntes { s with almacenados := s.almacenados ++ [x] } := by
  refine h.paso (crece_of_eq rfl rfl) h.cursor (fun _ ht => Or.inl ht)
    (fun o ho => Or.inl ⟨o, ho, rfl⟩) (fun y hy => ?_) fun _ hx => Or.inl hx
  rcases List.mem_append.mp hy with hy | hy
  · exact Or.inl hy
  · obtain rfl := List.mem_singleton.mp hy
    exact Or.inr hx

/-- The folder of a poll is covered, and the answer of the server has no UID 0. -/
theorem TodoAntes.pollFolder {j : ℕ} {o : Oyente} {carpeta : Carpeta} {raw : List ℕ}
    (direction : Direction) (uidnext : Bool) (h : TodoAntes s)
    (hraw : ∀ u ∈ raw, 0 < u ∧ u ≤ (s.carpetas carpeta).length) :
    TodoAntes (s.pollFolder j o carpeta direction uidnext raw) := by
  refine h.paso (crece_pollFolder ..) h.cursor (fun _ ht => Or.inl ht) (fun x hx => ?_)
    (fun _ hx => Or.inl hx) fun _ hx => Or.inl hx
  rcases List.mem_or_eq_of_mem_set hx with hx | rfl
  · exact Or.inl ⟨x, hx, rfl⟩
  · refine Or.inr fun p hp => ?_
    obtain rfl := Oyente.busca_sondeo hp
    exact ⟨⟨_, inicio_pollFolder ..⟩, fun u hu => (hraw u (List.mem_of_mem_filter hu)).1⟩

/-- A poll goes on to its next mail. -/
theorem TodoAntes.sin_leido {j : ℕ} {o : Oyente} {p : Sondeo} {uid : ℕ} {porLeer : List ℕ}
    (h : TodoAntes s) (hp : SondeoAntes s p) (hl : p.porLeer = uid :: porLeer) :
    TodoAntes { s with
      oyentes := s.oyentes.set j { o with sondeo := some { p with porLeer := porLeer } } } := by
  refine h.con_oyente fun q hq => ?_
  obtain rfl := Option.some.inj hq
  exact ⟨hp.1, fun u hu => hp.2 u (hl ▸ List.mem_cons_of_mem uid hu)⟩

/-- The cursor a task of old mail writes. -/
theorem antes_anotaUid {leidas fila : Uids} {carpeta : Carpeta} {uid : ℕ}
    (hl : ∀ k v, leidas k = some v → Antes s k v) (hf : ∀ k v, fila k = some v → Antes s k v)
    (hu : Antes s carpeta uid) : ∀ k v, anotaUid leidas fila carpeta uid k = some v → Antes s k v := by
  intro k v hv
  unfold anotaUid at hv
  split at hv
  · exact hf k v hv
  · unfold Uids.con at hv
    split at hv
    · next hk =>
      subst hk
      obtain rfl := Option.some.inj hv
      obtain ⟨b, hb, hle⟩ := hu
      refine ⟨b, hb, max_le ?_ hle⟩
      cases hold : leidas k with
      | none => exact Nat.zero_le b
      | some w =>
        obtain ⟨b', hb', hle'⟩ := hl k w hold
        obtain rfl : b' = b := Option.some.inj (hb'.symm.trans hb)
        exact hle'
    · exact hl k v hv

theorem todoAntes_paso (hc : anterior s a = true) (hp : pasoBuzon mailbox s a = some s')
    (h : TodoAntes s) : TodoAntes s' := by
  have hstep := pasoBuzon_cases hp
  have hgrow := crece_paso hstep
  cases hstep with
  | llega carpeta m =>
    exact h.paso hgrow h.cursor (fun _ ht => Or.inl ht) (fun o ho => Or.inl ⟨o, ho, rfl⟩)
      (fun _ hx => Or.inl hx) fun _ hx => Or.inl hx
  | arranca =>
    refine h.con_oyentes fun o ho => ?_
    rcases List.mem_append.mp ho with ho | ho
    · exact Or.inl ⟨o, ho, rfl⟩
    · obtain rfl := List.mem_singleton.mp ho
      exact Or.inr fun p hp => nomatch hp
  | para =>
    refine h.con_oyentes fun o ho => ?_
    obtain ⟨o', ho', rfl⟩ := List.mem_map.mp ho
    exact Or.inl ⟨o', ho', rfl⟩
  | cae =>
    have hts : TodoAntes { s with tareas := [] } := h.con_tareas fun t ht => nomatch ht
    exact hts.con_oyentes fun o ho => nomatch ho
  | @descubre j o name ho => exact h.con_oyente fun p hp => h.sondeos o (List.mem_of_getElem? ho) p hp
  | sondea direction uidnext ho hcarp hraw => exact h.pollFolder direction uidnext hraw
  | excepcion ho => exact h.con_oyente fun p hp => nomatch hp
  | termina ho hp hl => exact h.con_oyente fun p hp => nomatch hp
  | @falla j o p uid porLeer ho hson hl =>
    exact h.sin_leido (h.sondeos o (List.mem_of_getElem? ho) p hson) hl
  | @propio j o p uid porLeer m ho hson hl hm hk =>
    have hrest := h.sin_leido (j := j) (o := o) (h.sondeos o (List.mem_of_getElem? ho) p hson) hl
    exact hrest.con_descartado (Or.inr ⟨m, hm, hk⟩)
  | @empieza j o p uid porLeer m ho hson hl hm hk =>
    have hpoll := h.sondeos o (List.mem_of_getElem? ho) p hson
    refine (h.sin_leido (j := j) (o := o) hpoll hl).con_tareas fun t ht => ?_
    rcases List.mem_append.mp ht with ht | ht
    · exact Or.inl ht
    · obtain rfl := List.mem_singleton.mp ht
      have hu : 0 < uid := hpoll.2 uid (hl ▸ List.mem_cons_self)
      exact Or.inr ⟨hpoll.1, hu, hm, hk, fun _ hf => (nomatch hf), fun hf => by simp at hf⟩
  | leeFila ht hf =>
    refine h.con_fase ht (fun uids hu => ?_) (fun hf => by simp at hf)
    obtain rfl := Fase.leida.inj hu
    exact h.cursor
  | @anota i t uids ht hf =>
    have hold := h.tareas t (List.mem_of_getElem? ht)
    have hu : Antes s t.carpeta t.uid := by
      simpa [anterior, ht, Antes, Option.any_eq_true] using hc
    have hrow := antes_anotaUid (hold.leidas uids hf) h.cursor hu
    have hts := h.con_fase ht (f := .anotada) (fun _ hl => nomatch hl) fun _ => hu
    exact hts.paso (crece_of_eq rfl rfl) hrow (fun _ ht => Or.inl ht)
      (fun o ho => Or.inl ⟨o, ho, rfl⟩) (fun _ hx => Or.inl hx) fun _ hx => Or.inl hx
  | @descarta i t r m ht hf hm =>
    have hold := h.tareas t (List.mem_of_getElem? ht)
    exact h.sin_tarea.con_descartado (Or.inl (hold.anotada (Or.inl hf)))
  | @admite i t r ht hf hm =>
    have hold := h.tareas t (List.mem_of_getElem? ht)
    exact h.con_fase ht (fun _ hl => nomatch hl) fun _ => hold.anotada (Or.inl hf)
  | @almacena i t ht hf =>
    have hold := h.tareas t (List.mem_of_getElem? ht)
    exact h.sin_tarea.con_almacenado (hold.anotada (Or.inr hf))
  | abandona ht => exact h.sin_tarea

/-- Nothing is asked of a cursor that no new mail has reached. -/
theorem TodoAntes.cursorSound (h : TodoAntes s) : CursorSound s := by
  intro carpeta b v u hb hv hlt hle _
  obtain ⟨b', hb', hle'⟩ := h.cursor carpeta v hv
  obtain rfl : b' = b := Option.some.inj (hb'.symm.trans hb)
  omega

/-- The first new mail that reaches it is neither stored nor dropped. -/
theorem TodoAntes.not_cursorSound (h : TodoAntes s) (hp : pasoBuzon mailbox s a = some s')
    (hc : anterior s a = false) : ¬CursorSound s' := by
  have hstep := pasoBuzon_cases hp
  cases hstep with
  | @anota i t uids ht hf =>
    intro hsound
    have hold := h.tareas t (List.mem_of_getElem? ht)
    obtain ⟨b, hb⟩ := hold.inicio
    have hlt : b < t.uid := by simpa [anterior, ht, hb] using hc
    have hlen : t.uid ≤ (s.carpetas t.carpeta).length := by
      have := (List.getElem?_eq_some_iff.mp hold.correo).1
      have := hold.pos
      omega
    have hrow : anotaUid uids s.imapUids t.carpeta t.uid t.carpeta =
        some (max ((uids t.carpeta).getD 0) t.uid) := by
      have hany : ¬((uids t.carpeta).any fun v => t.uid ≤ v) = true := by
        intro hany
        obtain ⟨v, hv, hle⟩ := (Option.any_eq_true _ _).mp hany
        obtain ⟨b', hb', hle'⟩ := hold.leidas uids hf t.carpeta v hv
        obtain rfl : b' = b := Option.some.inj (hb'.symm.trans hb)
        have : t.uid ≤ v := by simpa using hle
        omega
      rw [anotaUid, if_neg hany]
      exact if_pos rfl
    have hnew : ¬Antes s t.carpeta t.uid := by
      rintro ⟨b', hb', hle'⟩
      obtain rfl : b' = b := Option.some.inj (hb'.symm.trans hb)
      omega
    rcases hsound t.carpeta b _ t.uid hb hrow hlt (le_max_right _ _) hlen with hst | ⟨m, hm⟩
    · exact hnew (h.almacenados _ hst)
    · rcases h.descartados _ hm with hb' | ⟨m', hm', hk⟩
      · exact hnew hb'
      · obtain rfl : m' = t.correo := Option.some.inj (hm'.symm.trans hold.correo)
        simp [hold.ajeno] at hk
  | _ => cases hc

/-- A run keeps the promise of the cursor in every state exactly when each task that writes
the cursor has a mail from before the coverage of its folder. -/
theorem cursorSound_iff {as : List AccionBuzon} (h : run (pasoBuzon mailbox) {} as = some s) :
    (∀ xs t, xs <+: as → run (pasoBuzon mailbox) {} xs = some t → CursorSound t) ↔
      (replay (pasoBuzon mailbox) anterior {} as).isSome := by
  have hinv (t : Buzon) (ht : Reachable (pasoBuzon mailbox) (fun s a => anterior s a = true) {} t) :
      TodoAntes t :=
    ht.invariant todoAntes_inicial fun _ _ _ hc hp hi => todoAntes_paso hc hp hi
  apply prefixes_iff_replay (fun t ht => (hinv t ht).cursorSound) _ as .refl h
  intro t a t' ht hp hc
  exact (hinv t ht).not_cursorSound hp hc

def pedido : Correo := ⟨false, "cliente@example.com", "comercial@example.com"⟩

/-- The folder does not tell its next UID, so the mail that was already there is read too. -/
def runOldMail : List AccionBuzon :=
  [.llega "INBOX" pedido, .arranca, .sondea 0 .received false [1], .recoge 0 true, .leeFila 0,
    .anota 0, .filtra 0 ⟨true, some true, false⟩, .almacena 0, .termina 0]

theorem cursorSound_of_runOldMail :
    (∃ s, run (pasoBuzon "comercial@example.com") {} runOldMail = some s ∧
      s.imapUids "INBOX" = some 1 ∧ s.almacenados = [("INBOX", 1)]) ∧
    ∀ xs t, xs <+: runOldMail → run (pasoBuzon "comercial@example.com") {} xs = some t →
      CursorSound t := by
  have hrun : ((run (pasoBuzon "comercial@example.com") {} runOldMail).map fun s =>
      (s.imapUids "INBOX", s.almacenados)) = some (some 1, [("INBOX", 1)]) := by
    decide
  have hold : (replay (pasoBuzon "comercial@example.com") anterior {} runOldMail).isSome := by
    decide
  obtain ⟨s, hs, heq⟩ := Option.map_eq_some_iff.mp hrun
  rw [Prod.mk.injEq] at heq
  exact ⟨⟨s, hs, heq⟩, (cursorSound_iff hs).mpr hold⟩

/-- The process dies after a task has written the cursor; the next listener starts after the
mail, which no task ever stores. -/
def runCrash : List AccionBuzon :=
  [.arranca, .sondea 0 .received true [], .llega "INBOX" pedido, .sondea 0 .received true [1],
    .recoge 0 true, .leeFila 0, .anota 0, .cae, .arranca, .sondea 0 .received true [1]]

theorem cursor_passes_unstored_mail :
    ¬ ∀ s, Reachable (pasoBuzon "comercial@example.com") Libre {} s → CursorSound s := by
  intro h
  have hrun : ((run (pasoBuzon "comercial@example.com") {} runCrash).map fun s =>
      (s.inicio "INBOX", s.imapUids "INBOX", (s.carpetas "INBOX").length,
        s.almacenados.isEmpty && s.descartados.isEmpty)) = some (some 0, some 1, 1, true) := by
    decide
  obtain ⟨s, hs, heq⟩ := Option.map_eq_some_iff.mp hrun
  simp only [Prod.mk.injEq, Bool.and_eq_true, List.isEmpty_iff] at heq
  obtain ⟨hb, hv, hlen, hst, hdr⟩ := heq
  have hsome : (run (pasoBuzon "comercial@example.com") {} runCrash).isSome := by simp [hs]
  have hreach := reachable_run runCrash hsome
  simp only [hs, Option.get_some] at hreach
  have hsound := h s hreach "INBOX" 0 1 1 hb hv Nat.zero_lt_one le_rfl hlen.ge
  simp [hst, hdr] at hsound

/-! ## What the cursor does promise -/

/-- A mail that is stored, dropped or in the hands of a task. -/
def Atendido (s : Buzon) (carpeta : Carpeta) (u : ℕ) : Prop :=
  (carpeta, u) ∈ s.almacenados ∨ (∃ m, ((carpeta, u), m) ∈ s.descartados) ∨
    ∃ t ∈ s.tareas, t.carpeta = carpeta ∧ t.uid = u

/-- The mail of a folder up to a UID that arrived after its coverage started is attended. -/
def Hasta (s : Buzon) (carpeta : Carpeta) (v : ℕ) : Prop :=
  v ≤ (s.carpetas carpeta).length ∧
    ∃ b, s.inicio carpeta = some b ∧ ∀ u, b < u → u ≤ v → Atendido s carpeta u

/-- Every fetch and every task succeeds, the server lists all the new mail in order, the
process stops when no task runs, and a folder the row has forgotten has had no mail since
its coverage started. -/
def sinAccidentes (s : Buzon) : AccionBuzon → Bool
  | .sondea j direction uidnext raw =>
    match s.oyentes[j]? with
    | none => true
    | some o =>
      (o.carpeta? direction).all fun carpeta =>
        let fin := (s.carpetas carpeta).length
        let last := o.last carpeta fin uidnext
        (raw.filter fun u => last < u) = List.range' (last + 1) (fin - last) &&
          ((o.lastUid carpeta).isSome || !uidnext || (s.inicio carpeta).all fun b => fin ≤ b)
  | .recoge _ ok => ok
  | .cae => s.tareas.isEmpty
  | .abandona _ => false
  | _ => true

theorem Hasta.le {carpeta : Carpeta} {v w : ℕ} (h : Hasta s carpeta w) (hvw : v ≤ w) :
    Hasta s carpeta v := by
  obtain ⟨hlen, b, hb, hall⟩ := h
  exact ⟨hvw.trans hlen, b, hb, fun u hlt hle => hall u hlt (hle.trans hvw)⟩

/-- A poll has what it still has to read in order, and has seen to the rest. -/
def SondeoHasta (s : Buzon) (p : Sondeo) : Prop :=
  ∃ k n, p.porLeer = List.range' (k + 1) n ∧ Hasta s p.carpeta k ∧
    k + n ≤ (s.carpetas p.carpeta).length ∧ p.uids.foldr max 0 ≤ k + n

structure OyenteHasta (s : Buzon) (o : Oyente) : Prop where
  lastUid : ∀ carpeta l, o.lastUid carpeta = some l → Hasta s carpeta l
  sondeo : ∀ p, o.sondeo = some p → SondeoHasta s p

structure TareaHasta (s : Buzon) (t : Tarea) : Prop where
  uid : Hasta s t.carpeta t.uid
  leidas : ∀ uids, t.fase = .leida uids → ∀ carpeta v, uids carpeta = some v → Hasta s carpeta v

/-- Every copy of the cursor, and every UID on its way to it, has the mail up to it attended. -/
structure TodoHasta (s : Buzon) : Prop where
  cursor : ∀ carpeta v, s.imapUids carpeta = some v → Hasta s carpeta v
  tareas : ∀ t ∈ s.tareas, TareaHasta s t
  oyentes : ∀ o ∈ s.oyentes, OyenteHasta s o

theorem todoHasta_inicial : TodoHasta {} where
  cursor carpeta v h := by cases h
  tareas t h := by cases h
  oyentes o h := by cases h

/-- A step that loses no mail. -/
structure Sigue (s s' : Buzon) : Prop extends Crece s s' where
  atendido : ∀ carpeta u, Atendido s carpeta u → Atendido s' carpeta u

theorem Hasta.mono {carpeta : Carpeta} {v : ℕ} (h : Hasta s carpeta v) (hs : Sigue s s') :
    Hasta s' carpeta v := by
  obtain ⟨hlen, b, hb, hall⟩ := h
  exact ⟨hlen.trans (hs.carpetas carpeta).length_le, b, hs.inicio carpeta b hb,
    fun u hlt hle => hs.atendido carpeta u (hall u hlt hle)⟩

theorem SondeoHasta.mono {p : Sondeo} (h : SondeoHasta s p) (hs : Sigue s s') : SondeoHasta s' p := by
  obtain ⟨k, n, hl, hk, hlen, hmax⟩ := h
  exact ⟨k, n, hl, hk.mono hs, hlen.trans (hs.carpetas p.carpeta).length_le, hmax⟩

theorem OyenteHasta.mono {o : Oyente} (h : OyenteHasta s o) (hs : Sigue s s') : OyenteHasta s' o where
  lastUid carpeta l hl := (h.lastUid carpeta l hl).mono hs
  sondeo p hp := (h.sondeo p hp).mono hs

theorem TareaHasta.mono {t : Tarea} (h : TareaHasta s t) (hs : Sigue s s') : TareaHasta s' t where
  uid := h.uid.mono hs
  leidas uids hf carpeta v hv := (h.leidas uids hf carpeta v hv).mono hs

theorem TodoHasta.paso (h : TodoHasta s) (hs : Sigue s s')
    (hcur : ∀ carpeta v, s'.imapUids carpeta = some v → Hasta s carpeta v)
    (htar : ∀ t ∈ s'.tareas, t ∈ s.tareas ∨ TareaHasta s' t)
    (hoye : ∀ o ∈ s'.oyentes, o ∈ s.oyentes ∨ OyenteHasta s' o) : TodoHasta s' where
  cursor carpeta v hv := (hcur carpeta v hv).mono hs
  tareas t ht := (htar t ht).elim (fun hold => (h.tareas t hold).mono hs) id
  oyentes o ho := (hoye o ho).elim (fun hold => (h.oyentes o hold).mono hs) id

/-- A task that goes on keeps its mail. -/
theorem atendido_con_fase {i : ℕ} {t : Tarea} (f : Fase) (ht : s.tareas[i]? = some t)
    {carpeta : Carpeta} {u : ℕ} (h : Atendido s carpeta u) :
    Atendido { s with tareas := s.tareas.set i { t with fase := f } } carpeta u := by
  rcases h with hst | hdr | ⟨t', ht', hc, hu⟩
  · exact Or.inl hst
  · exact Or.inr (Or.inl hdr)
  · refine Or.inr (Or.inr ?_)
    rcases eq_or_mem_set ht { t with fase := f } ht' with rfl | ht'
    · exact ⟨_, List.mem_set (List.getElem?_eq_some_iff.mp ht).1 _, hc, hu⟩
    · exact ⟨t', ht', hc, hu⟩

/-- A task that ends has stored or dropped its mail. -/
theorem atendido_sin_tarea {i : ℕ} {t : Tarea} (ht : s.tareas[i]? = some t)
    (htareas : s'.tareas = s.tareas.eraseIdx i)
    (hst : ∀ x ∈ s.almacenados, x ∈ s'.almacenados) (hdr : ∀ x ∈ s.descartados, x ∈ s'.descartados)
    (hend : (t.carpeta, t.uid) ∈ s'.almacenados ∨ ∃ m, ((t.carpeta, t.uid), m) ∈ s'.descartados)
    {carpeta : Carpeta} {u : ℕ} (h : Atendido s carpeta u) : Atendido s' carpeta u := by
  rcases h with hx | ⟨m, hm⟩ | ⟨t', ht', rfl, rfl⟩
  · exact Or.inl (hst _ hx)
  · exact Or.inr (Or.inl ⟨m, hdr _ hm⟩)
  · rcases eq_or_mem_eraseIdx ht ht' with rfl | ht'
    · exact hend.imp_right Or.inl
    · exact Or.inr (Or.inr ⟨t', htareas ▸ ht', rfl, rfl⟩)

theorem sigue_paso (hc : sinAccidentes s a = true) (h : Cambio mailbox s a s') : Sigue s s' := by
  refine ⟨crece_paso h, fun carpeta u hu => ?_⟩
  cases h with
  | cae =>
    have hnil : s.tareas = [] := by simpa [sinAccidentes] using hc
    rcases hu with hst | hdr | ⟨t, ht, -⟩
    · exact Or.inl hst
    · exact Or.inr (Or.inl hdr)
    · simp [hnil] at ht
  | propio ho hp hl hm hk =>
    rcases hu with hst | ⟨m, hdr⟩ | htask
    · exact Or.inl hst
    · exact Or.inr (Or.inl ⟨m, List.mem_append_left _ hdr⟩)
    · exact Or.inr (Or.inr htask)
  | empieza ho hp hl hm hk =>
    rcases hu with hst | hdr | ⟨t, ht, heq⟩
    · exact Or.inl hst
    · exact Or.inr (Or.inl hdr)
    · exact Or.inr (Or.inr ⟨t, List.mem_append_left _ ht, heq⟩)
  | leeFila ht hf => exact atendido_con_fase _ ht hu
  | anota ht hf => exact atendido_con_fase _ ht hu
  | admite ht hf hm => exact atendido_con_fase _ ht hu
  | descarta ht hf hm =>
    refine atendido_sin_tarea ht rfl ?_ ?_ ?_ hu
    · exact fun _ hx => hx
    · exact fun _ hx => List.mem_append_left _ hx
    · exact Or.inr ⟨_, List.mem_append_right _ (List.mem_singleton.mpr rfl)⟩
  | almacena ht hf =>
    refine atendido_sin_tarea ht rfl ?_ ?_ ?_ hu
    · exact fun _ hx => List.mem_append_left _ hx
    · exact fun _ hx => hx
    · exact Or.inl (List.mem_append_right _ (List.mem_singleton.mpr rfl))
  | abandona ht => cases hc
  | _ => exact hu

/-- The next mail of a poll, once it is attended. -/
theorem SondeoHasta.siguiente {p : Sondeo} {uid : ℕ} {porLeer : List ℕ} (h : SondeoHasta s p)
    (hs : Sigue s s') (hl : p.porLeer = uid :: porLeer) (hu : Atendido s' p.carpeta uid) :
    Hasta s' p.carpeta uid ∧ SondeoHasta s' { p with porLeer := porLeer } := by
  obtain ⟨k, n, hr, hk, hlen, hmax⟩ := h
  cases n with
  | zero => simp [hl] at hr
  | succ n =>
    rw [hl, List.range'_succ, List.cons.injEq] at hr
    obtain ⟨rfl, rfl⟩ := hr
    have hgrow := (hs.carpetas p.carpeta).length_le
    have hnext : Hasta s' p.carpeta (k + 1) := by
      obtain ⟨-, b, hb, hall⟩ := hk.mono hs
      refine ⟨by omega, b, hb, fun u hlt hle => ?_⟩
      rcases Nat.lt_or_eq_of_le hle with hle | rfl
      · exact hall u hlt (Nat.le_of_lt_succ hle)
      · exact hu
    exact ⟨hnext, k + 1, n, rfl, hnext, by dsimp only; omega, by dsimp only; omega⟩

/-- A listener that starts a poll without accidents. -/
theorem hasta_busca {j : ℕ} {o : Oyente} {carpeta : Carpeta} {direction : Direction}
    {uidnext : Bool} {raw : List ℕ} (ho : OyenteHasta s o)
    (hall : (raw.filter fun u => o.last carpeta (s.carpetas carpeta).length uidnext < u) =
      List.range' (o.last carpeta (s.carpetas carpeta).length uidnext + 1)
        ((s.carpetas carpeta).length - o.last carpeta (s.carpetas carpeta).length uidnext))
    (hfirst : (o.lastUid carpeta).isSome ∨ uidnext = false ∨
      ∀ b, s.inicio carpeta = some b → (s.carpetas carpeta).length ≤ b)
    (hs : Sigue s (s.pollFolder j o carpeta direction uidnext raw)) :
    OyenteHasta (s.pollFolder j o carpeta direction uidnext raw)
      (o.busca carpeta direction (o.last carpeta (s.carpetas carpeta).length uidnext) raw) := by
  have hlast : Hasta (s.pollFolder j o carpeta direction uidnext raw) carpeta
      (o.last carpeta (s.carpetas carpeta).length uidnext) := by
    cases hold : o.lastUid carpeta with
    | some l =>
      have hl : o.last carpeta (s.carpetas carpeta).length uidnext = l := by simp [Oyente.last, hold]
      exact hl ▸ (ho.lastUid carpeta l hold).mono hs
    | none =>
      refine ⟨?_, _, inicio_pollFolder .., fun u hlt hle => absurd hle ?_⟩
      · simp only [Oyente.last, hold, Option.getD_none, Buzon.pollFolder]
        split <;> omega
      · -- no mail lies between the start of the coverage and the place the poll starts from
        simp only [Oyente.last, hold, Option.getD_none]
        cases uidnext with
        | false => simp; omega
        | true =>
          cases hb : s.inicio carpeta with
          | none => simpa [hb] using hlt
          | some b =>
            have hle : (s.carpetas carpeta).length ≤ b := by simpa [hold, hb] using hfirst
            rw [hb, Option.getD_some] at hlt
            simp
            omega
  refine ⟨fun k l hl => ?_, fun p hp => ?_⟩
  · by_cases hk : k = carpeta
    · subst hk
      have heq : some (o.last k (s.carpetas k).length uidnext) = some l := (if_pos rfl).symm.trans hl
      exact Option.some.inj heq ▸ hlast
    · have heq : o.lastUid k = some l := (if_neg hk).symm.trans hl
      exact (ho.lastUid k l heq).mono hs
  · obtain rfl := Oyente.busca_sondeo hp
    have hlen : o.last carpeta (s.carpetas carpeta).length uidnext ≤ (s.carpetas carpeta).length :=
      hlast.1
    refine ⟨_, _, hall, hlast, ?_, ?_⟩
    · exact (Nat.add_sub_of_le hlen).le
    · rw [hall, Nat.add_sub_of_le hlen]
      refine List.max_le_of_forall_le _ _ fun u hu => ?_
      have := List.mem_range'_1.mp hu
      omega

/-- A poll that has read its mail moves its listener to the newest of it. -/
theorem OyenteHasta.termina {o : Oyente} {p : Sondeo} (h : OyenteHasta s o)
    (hp : o.sondeo = some p) (hl : p.porLeer = []) :
    OyenteHasta s { o with
      lastUid := o.lastUid.con p.carpeta (max ((o.lastUid p.carpeta).getD 0) (p.uids.foldr max 0))
      sondeo := none } := by
  refine ⟨fun k l hk => ?_, fun q hq => nomatch hq⟩
  dsimp only [Uids.con] at hk
  split at hk
  · next heq =>
    subst heq
    obtain rfl := Option.some.inj hk
    obtain ⟨m, n, hr, hm, -, hmax⟩ := h.sondeo p hp
    have hn : n = 0 := by simpa [hl] using hr.symm
    have hnew : Hasta s p.carpeta (p.uids.foldr max 0) := hm.le (by omega)
    cases hold : o.lastUid p.carpeta with
    | none => simpa using hnew
    | some l =>
      rcases max_choice l (p.uids.foldr max 0) with hmx | hmx
      · simpa [hmx] using h.lastUid p.carpeta l hold
      · simpa [hmx] using hnew
  · exact h.lastUid k l hk

/-- The row a task writes: its own folder up to its UID, the others as it read them. -/
theorem hasta_anotaUid {leidas fila : Uids} {carpeta : Carpeta} {uid : ℕ}
    (hl : ∀ k v, leidas k = some v → Hasta s k v) (hf : ∀ k v, fila k = some v → Hasta s k v)
    (hu : Hasta s carpeta uid) : ∀ k v, anotaUid leidas fila carpeta uid k = some v → Hasta s k v := by
  intro k v hv
  unfold anotaUid at hv
  split at hv
  · exact hf k v hv
  · next hany =>
    unfold Uids.con at hv
    split at hv
    · next hk =>
      subst hk
      obtain rfl := Option.some.inj hv
      cases hold : leidas k with
      | none => simpa using hu
      | some w =>
        have hlt : w < uid := by simpa [hold] using hany
        simpa [max_eq_right hlt.le] using hu
    · exact hl k v hv

theorem todoHasta_paso (hc : sinAccidentes s a = true) (hp : pasoBuzon mailbox s a = some s')
    (h : TodoHasta s) : TodoHasta s' := by
  have hstep := pasoBuzon_cases hp
  have hs := sigue_paso hc hstep
  have hone {j : ℕ} {o : Oyente} (ho : OyenteHasta s' o) :
      ∀ x ∈ s.oyentes.set j o, x ∈ s.oyentes ∨ OyenteHasta s' x := by
    intro x hx
    rcases List.mem_or_eq_of_mem_set hx with hx | rfl
    · exact Or.inl hx
    · exact Or.inr ho
  have htask {i : ℕ} {t : Tarea} {f : Fase} (ht : s.tareas[i]? = some t)
      (hf : ∀ uids, f = .leida uids → ∀ k v, uids k = some v → Hasta s k v) :
      ∀ x ∈ s.tareas.set i { t with fase := f }, x ∈ s.tareas ∨ TareaHasta s' x := by
    intro x hx
    rcases List.mem_or_eq_of_mem_set hx with hx | rfl
    · exact Or.inl hx
    · have hold : Hasta s t.carpeta t.uid := (h.tareas t (List.mem_of_getElem? ht)).uid
      exact Or.inr ⟨hold.mono hs, fun uids hu k v hv => (hf uids hu k v hv).mono hs⟩
  have herase {i : ℕ} (x : Tarea) (hx : x ∈ s.tareas.eraseIdx i) : x ∈ s.tareas ∨ TareaHasta s' x :=
    Or.inl (List.mem_of_mem_eraseIdx hx)
  cases hstep with
  | llega carpeta m => exact h.paso hs h.cursor (fun _ ht => Or.inl ht) fun _ ho => Or.inl ho
  | arranca =>
    refine h.paso hs h.cursor (fun _ ht => Or.inl ht) fun o ho => ?_
    rcases List.mem_append.mp ho with ho | ho
    · exact Or.inl ho
    · obtain rfl := List.mem_singleton.mp ho
      exact Or.inr ⟨fun k l hl => (h.cursor k l hl).mono hs, fun p hp => nomatch hp⟩
  | para =>
    refine h.paso hs h.cursor (fun _ ht => Or.inl ht) fun o ho => ?_
    obtain ⟨o', ho', rfl⟩ := List.mem_map.mp ho
    have hold := (h.oyentes o' ho').mono hs
    exact Or.inr ⟨hold.lastUid, hold.sondeo⟩
  | cae => exact h.paso hs h.cursor (fun _ ht => nomatch ht) fun _ ho => nomatch ho
  | @descubre j o name ho =>
    have hold := (h.oyentes o (List.mem_of_getElem? ho)).mono hs
    exact h.paso hs h.cursor (fun _ ht => Or.inl ht) (hone ⟨hold.lastUid, hold.sondeo⟩)
  | @sondea j o carpeta raw direction uidnext ho hcarp hraw =>
    have hcond := hc
    simp only [sinAccidentes, ho, hcarp, Option.all_some, Bool.and_eq_true, decide_eq_true_eq] at hcond
    have hfirst : (o.lastUid carpeta).isSome ∨ uidnext = false ∨
        ∀ b, s.inicio carpeta = some b → (s.carpetas carpeta).length ≤ b := by
      simpa [or_assoc, Option.all_eq_true] using hcond.2
    have hold := h.oyentes o (List.mem_of_getElem? ho)
    exact h.paso hs h.cursor (fun _ ht => Or.inl ht) (hone (hasta_busca hold hcond.1 hfirst hs))
  | falla ho hson hl => cases hc
  | @propio j o p uid porLeer m ho hson hl hm hk =>
    have hold := h.oyentes o (List.mem_of_getElem? ho)
    have hnext := (hold.sondeo p hson).siguiente hs hl
      (Or.inr (Or.inl ⟨.own, List.mem_append_right _ (List.mem_singleton.mpr rfl)⟩))
    refine h.paso hs h.cursor (fun _ ht => Or.inl ht) (hone ⟨(hold.mono hs).lastUid, ?_⟩)
    intro q hq
    exact Option.some.inj hq ▸ hnext.2
  | @empieza j o p uid porLeer m ho hson hl hm hk =>
    have hold := h.oyentes o (List.mem_of_getElem? ho)
    have hnext := (hold.sondeo p hson).siguiente hs hl
      (Or.inr (Or.inr ⟨_, List.mem_append_right _ (List.mem_singleton.mpr rfl), rfl, rfl⟩))
    refine h.paso hs h.cursor (fun t ht => ?_) (hone ⟨(hold.mono hs).lastUid, ?_⟩)
    · rcases List.mem_append.mp ht with ht | ht
      · exact Or.inl ht
      · obtain rfl := List.mem_singleton.mp ht
        exact Or.inr ⟨hnext.1, fun _ hf => nomatch hf⟩
    · intro q hq
      exact Option.some.inj hq ▸ hnext.2
  | @excepcion j o ho =>
    have hold := (h.oyentes o (List.mem_of_getElem? ho)).mono hs
    exact h.paso hs h.cursor (fun _ ht => Or.inl ht) (hone ⟨hold.lastUid, fun p hp => nomatch hp⟩)
  | @termina j o p ho hson hl =>
    have hold := (h.oyentes o (List.mem_of_getElem? ho)).termina hson hl
    exact h.paso hs h.cursor (fun _ ht => Or.inl ht) (hone (hold.mono hs))
  | leeFila ht hf =>
    refine h.paso hs h.cursor (htask ht fun uids hu => ?_) fun _ ho => Or.inl ho
    exact Fase.leida.inj hu ▸ h.cursor
  | @anota i t uids ht hf =>
    have hold := h.tareas t (List.mem_of_getElem? ht)
    exact h.paso hs (hasta_anotaUid (hold.leidas uids hf) h.cursor hold.uid)
      (htask ht fun _ hu => nomatch hu) fun _ ho => Or.inl ho
  | descarta ht hf hm => exact h.paso hs h.cursor herase fun _ ho => Or.inl ho
  | admite ht hf hm =>
    exact h.paso hs h.cursor (htask ht fun _ hu => nomatch hu) fun _ ho => Or.inl ho
  | almacena ht hf => exact h.paso hs h.cursor herase fun _ ho => Or.inl ho
  | abandona ht => cases hc

/-- In a run without accidents the mail up to the cursor is stored, dropped or in the hands
of a task, in every state. -/
theorem cursor_atendido
    (h : Reachable (pasoBuzon mailbox) (fun s a => sinAccidentes s a = true) {} s)
    {carpeta : Carpeta} {b v u : ℕ} (hb : s.inicio carpeta = some b)
    (hv : s.imapUids carpeta = some v) (hlt : b < u) (hle : u ≤ v) : Atendido s carpeta u := by
  have hinv : TodoHasta s :=
    h.invariant todoHasta_inicial fun _ _ _ hc hp hi => todoHasta_paso hc hp hi
  obtain ⟨-, b', hb', hall⟩ := hinv.cursor carpeta v hv
  obtain rfl : b' = b := Option.some.inj (hb'.symm.trans hb)
  exact hall u hlt hle

/-- So the cursor keeps its promise whenever no task runs. -/
theorem cursorSound_of_idle
    (h : Reachable (pasoBuzon mailbox) (fun s a => sinAccidentes s a = true) {} s)
    (ht : s.tareas = []) : CursorSound s := by
  intro carpeta b v u hb hv hlt hle _
  rcases cursor_atendido h hb hv hlt hle with hst | hdr | ⟨t, hmem, -⟩
  · exact Or.inl hst
  · exact Or.inr hdr
  · simp [ht] at hmem

end Steps

end Chatlink.Mail
