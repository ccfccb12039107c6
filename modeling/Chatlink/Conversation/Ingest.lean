import Chatlink.Conversation.Numbering

/-!
# Ingest and the order of a conversation

"Newer than the salesman's last message" is decided by row ids, and a row takes its
id when its task inserts it, after lookups and transcriptions of any length. The ids
follow the stream, as far as the salesman answers the client, exactly as long as no
message of the salesman is inserted while an earlier one of the client still waits.
-/
namespace Chatlink.Conversation

open Transition

variable {cfg : Config} {s s' : Sistema}

/-- A message of the stream that has its id: stored, or inserted and not committed. -/
structure Sello where
  clave : Clave
  direction : Direction
  id : ℕ
  llegada : ℕ
  deriving DecidableEq

def Fila.sello? (f : Fila) : Option Sello :=
  if f.isBot then none else some ⟨f.clave, f.direction, f.id, f.llegada⟩

def Tarea.sello? (t : Tarea) : Option Sello :=
  t.id?.map fun id => ⟨t.clave, t.direction, id, t.llegada⟩

def Sistema.sellos (s : Sistema) : List Sello :=
  s.filas.filterMap Fila.sello? ++ s.tareas.filterMap Tarea.sello?

theorem mem_sellos {x : Sello} : x ∈ s.sellos ↔
    (∃ f ∈ s.filas, f.sello? = some x) ∨ ∃ t ∈ s.tareas, t.sello? = some x := by
  simp [Sistema.sellos, List.mem_filterMap]

theorem sello_lt {x : Sello} (h : Numerado s) (hx : x ∈ s.sellos) :
    x.id < s.siguiente x.clave.canal := by
  rcases mem_sellos.mp hx with ⟨f, hf, hfx⟩ | ⟨t, ht, htx⟩
  · cases hb : f.isBot with
    | true => simp [Fila.sello?, hb] at hfx
    | false =>
      obtain rfl : _ = x := by simpa [Fila.sello?, hb] using hfx
      exact h.fila_lt hf
  · obtain ⟨id, hid, rfl⟩ := Option.map_eq_some_iff.mp htx
    exact h.tarea_lt ht hid

/-- The order of the stream, as the ids keep it. -/
structure Orden (s : Sistema) : Prop where
  llegadas : ∀ x ∈ s.sellos, x.llegada < s.llegadas
  porLlegar : ∀ t ∈ s.tareas, t.id? = none → t.llegada < s.llegadas
  orden : ∀ c ∈ s.sellos, ∀ v ∈ s.sellos, c.direction = .received → v.direction = .sent →
    c.clave = v.clave → c.llegada < v.llegada → c.id < v.id
  espera : ∀ t ∈ s.tareas, t.id? = none → t.direction = .received →
    ∀ v ∈ s.sellos, v.direction = .sent → t.clave = v.clave → v.llegada ≤ t.llegada

/-- A step that gives no new id and starts no new message keeps the order. -/
theorem Orden.of_subset (h : Orden s) (hs : ∀ x ∈ s'.sellos, x ∈ s.sellos)
    (ht : ∀ t ∈ s'.tareas, t.id? = none → ∃ u ∈ s.tareas, u.id? = none ∧ u.clave = t.clave ∧
      u.direction = t.direction ∧ u.llegada = t.llegada)
    (hl : s.llegadas ≤ s'.llegadas) : Orden s' := by
  refine ⟨fun x hx => ?_, fun t htm hid => ?_, fun c hc v hv => ?_, fun t htm hid hd v hv => ?_⟩
  · exact lt_of_lt_of_le (h.llegadas x (hs x hx)) hl
  · obtain ⟨u, hu, huid, -, -, hul⟩ := ht t htm hid
    exact lt_of_lt_of_le (hul ▸ h.porLlegar u hu huid) hl
  · exact h.orden c (hs c hc) v (hs v hv)
  · obtain ⟨u, hu, huid, huc, hud, hul⟩ := ht t htm hid
    intro hvd hclave
    rw [← hul]
    exact h.espera u hu huid (hud.trans hd) v (hs v hv) hvd (huc.trans hclave)

/-- The tasks that had no id before are the ones without an id, when none was added. -/
theorem sinId_of_mem {t : Tarea} (h : ∀ t ∈ s'.tareas, t ∈ s.tareas) (ht : t ∈ s'.tareas)
    (hid : t.id? = none) : ∃ u ∈ s.tareas, u.id? = none ∧ u.clave = t.clave ∧
      u.direction = t.direction ∧ u.llegada = t.llegada :=
  ⟨t, h t ht, hid, rfl, rfl, rfl⟩

/-- No message of the salesman takes its id while an earlier message of the client in
the same conversation has none. -/
def enOrden (s : Sistema) : Accion → Bool
  | .inserta i =>
    match s.tareas[i]? with
    | none => true
    | some t => t.direction = .received || s.tareas.all fun u =>
        u.clave ≠ t.clave || u.direction = .sent || u.id?.isSome || t.llegada ≤ u.llegada
  | _ => true

theorem enOrden_inserta {i : ℕ} {t : Tarea} (h : enOrden s (.inserta i)) (ht : s.tareas[i]? = some t)
    (hd : t.direction = .sent) {u : Tarea} (hu : u ∈ s.tareas) (hk : u.clave = t.clave)
    (hud : u.direction = .received) (hid : u.id? = none) : t.llegada ≤ u.llegada := by
  have hall : ∀ x ∈ s.tareas, x.clave = t.clave → x.direction ≠ .sent → x.id? = none →
      t.llegada ≤ x.llegada := by
    intro x hx hxk hxd hxid
    simp only [enOrden, ht, hd, reduceCtorEq, decide_false, Bool.false_or, List.all_eq_true] at h
    simpa [hxk, hxd, hxid] using h x hx
  exact hall u hu hk (by simp [hud]) hid

theorem orden_inserta {i : ℕ} {t : Tarea} {message : Texto} {ts : ℕ} (hn : Numerado s) (h : Orden s)
    (hc : enOrden s (.inserta i)) (ht : s.tareas[i]? = some t)
    (hf : t.fase = .preparada message ts) :
    Orden { s with
      tareas := s.tareas.set i { t with fase := .insertada message ts (s.siguiente t.clave.canal) }
      siguiente := Function.update s.siguiente t.clave.canal (s.siguiente t.clave.canal + 1) } := by
  have htm := List.mem_of_getElem? ht
  have hid : t.id? = none := by simp [Tarea.id?, hf]
  -- the only new stamp is the one of `t`, with the next id of its table
  have hnew {x : Sello} (hx : x ∈ Sistema.sellos { s with
      tareas := s.tareas.set i { t with fase := .insertada message ts (s.siguiente t.clave.canal) }
      siguiente := Function.update s.siguiente t.clave.canal (s.siguiente t.clave.canal + 1) }) :
      x ∈ s.sellos ∨ x = ⟨t.clave, t.direction, s.siguiente t.clave.canal, t.llegada⟩ := by
    rcases mem_sellos.mp hx with ⟨f, hfm, hfx⟩ | ⟨u, hum, hux⟩
    · exact Or.inl (mem_sellos.mpr (Or.inl ⟨f, hfm, hfx⟩))
    · rcases List.mem_or_eq_of_mem_set hum with hum | rfl
      · exact Or.inl (mem_sellos.mpr (Or.inr ⟨u, hum, hux⟩))
      · exact Or.inr (Option.some.inj hux).symm
  refine ⟨fun x hx => ?_, fun u hum huid => ?_, fun c hcm v hvm hcd hvd hk hlt => ?_,
    fun u hum huid hud v hvm hvd hk => ?_⟩
  · rcases hnew hx with hx | rfl
    · exact h.llegadas x hx
    · exact h.porLlegar t htm hid
  · rcases List.mem_or_eq_of_mem_set hum with hum | rfl
    · exact h.porLlegar u hum huid
    · cases huid
  · rcases hnew hcm with hcm | rfl <;> rcases hnew hvm with hvm | rfl
    · exact h.orden c hcm v hvm hcd hvd hk hlt
    · have hids := sello_lt hn hcm
      rwa [hk] at hids
    · exact absurd hlt (Nat.not_lt.mpr (h.espera t htm hid hcd v hvm hvd hk))
    · rw [hcd] at hvd
      cases hvd
  · rcases List.mem_or_eq_of_mem_set hum with hum | rfl
    · rcases hnew hvm with hvm | rfl
      · exact h.espera u hum huid hud v hvm hvd hk
      · exact enOrden_inserta hc ht hvd hum hk hud huid
    · cases huid

theorem orden_llega (h : Orden s) (k : Clave) (d : Direction) :
    Orden { s with
      tareas := s.tareas ++ [{ llegada := s.llegadas, clave := k, direction := d }]
      llegadas := s.llegadas + 1 } := by
  have hold {x : Sello} (hx : x ∈ Sistema.sellos { s with
      tareas := s.tareas ++ [{ llegada := s.llegadas, clave := k, direction := d }]
      llegadas := s.llegadas + 1 }) : x ∈ s.sellos := by
    rcases mem_sellos.mp hx with ⟨f, hfm, hfx⟩ | ⟨u, hum, hux⟩
    · exact mem_sellos.mpr (Or.inl ⟨f, hfm, hfx⟩)
    · rcases List.mem_append.mp hum with hum | hum
      · exact mem_sellos.mpr (Or.inr ⟨u, hum, hux⟩)
      · rw [List.mem_singleton.mp hum] at hux
        cases hux
  refine ⟨fun x hx => Nat.lt_succ_of_lt (h.llegadas x (hold hx)),
    fun u hum huid => ?_, fun c hcm v hvm => h.orden c (hold hcm) v (hold hvm),
    fun u hum huid hud v hvm hvd hk => ?_⟩
  · rcases List.mem_append.mp hum with hum | hum
    · exact Nat.lt_succ_of_lt (h.porLlegar u hum huid)
    · rw [List.mem_singleton.mp hum]
      exact Nat.lt_succ_self _
  · rcases List.mem_append.mp hum with hum | hum
    · exact h.espera u hum huid hud v (hold hvm) hvd hk
    · rw [List.mem_singleton.mp hum]
      exact (h.llegadas v (hold hvm)).le

/-- Erasing a task, or storing its message, moves no stamp. -/
theorem orden_confirma {i : ℕ} {t : Tarea} {message : Texto} {ts id : ℕ} (h : Orden s)
    (ht : s.tareas[i]? = some t) (hf : t.fase = .insertada message ts id) :
    Orden { s with
      tareas := s.tareas.eraseIdx i
      filas := s.filas ++ [t.fila message ts id] } := by
  have htm := List.mem_of_getElem? ht
  refine h.of_subset (fun x hx => ?_)
    (fun u hu hid => sinId_of_mem (fun _ => List.mem_of_mem_eraseIdx) hu hid) le_rfl
  rcases mem_sellos.mp hx with ⟨f, hfm, hfx⟩ | ⟨u, hum, hux⟩
  · rcases List.mem_append.mp hfm with hfm | hfm
    · exact mem_sellos.mpr (Or.inl ⟨f, hfm, hfx⟩)
    · refine mem_sellos.mpr (Or.inr ⟨t, htm, ?_⟩)
      rw [← hfx, List.mem_singleton.mp hfm]
      simp [Tarea.sello?, Tarea.id?, hf, Fila.sello?, Tarea.fila]
  · exact mem_sellos.mpr (Or.inr ⟨u, List.mem_of_mem_eraseIdx hum, hux⟩)

theorem orden_paso {a : Accion} (hn : Numerado s) (hc : enOrden s a) (hp : paso cfg s a = some s') (h : Orden s) :
    Orden s' := by
  have hsame {t : Tarea} (ht : t ∈ s.tareas) (hid : t.id? = none) :
      ∃ u ∈ s.tareas, u.id? = none ∧ u.clave = t.clave ∧ u.direction = t.direction ∧
        u.llegada = t.llegada := ⟨t, ht, hid, rfl, rfl, rfl⟩
  cases paso_cases hp with
  | reloj d => exact h.of_subset (fun _ hx => hx) (fun _ => hsame) le_rfl
  | llega k d => exact orden_llega h k d
  | quita i =>
    refine h.of_subset (fun x hx => ?_)
      (fun u hu => hsame (List.mem_of_mem_eraseIdx hu)) le_rfl
    rcases mem_sellos.mp hx with hf | ⟨u, hum, hux⟩
    · exact mem_sellos.mpr (Or.inl hf)
    · exact mem_sellos.mpr (Or.inr ⟨u, List.mem_of_mem_eraseIdx hum, hux⟩)
  | @prepara i t message ht hf =>
    have htm := List.mem_of_getElem? ht
    refine h.of_subset (fun x hx => ?_) (fun u hu hid => ?_) le_rfl
    · rcases mem_sellos.mp hx with hf | ⟨u, hum, hux⟩
      · exact mem_sellos.mpr (Or.inl hf)
      · rcases List.mem_or_eq_of_mem_set hum with hum | rfl
        · exact mem_sellos.mpr (Or.inr ⟨u, hum, hux⟩)
        · cases hux
    · rcases List.mem_or_eq_of_mem_set hu with hu | rfl
      · exact hsame hu hid
      · exact ⟨t, htm, by simp [Tarea.id?, hf], rfl, rfl, rfl⟩
  | inserta ht hf => exact orden_inserta hn h hc ht hf
  | confirma ht hf => exact orden_confirma h ht hf
  | avanza ha => exact h.of_subset (fun _ hx => hx) (fun _ => hsame) le_rfl
  | done x fin hb => exact h.of_subset (fun _ hx => hx) (fun _ => hsame) le_rfl
  | responde x hb hr =>
    refine h.of_subset (fun x hx => ?_) (fun _ => hsame) le_rfl
    rcases mem_sellos.mp hx with ⟨f, hfm, hfx⟩ | hu
    · rcases List.mem_append.mp hfm with hfm | hfm
      · exact mem_sellos.mpr (Or.inl ⟨f, hfm, hfx⟩)
      · rw [List.mem_singleton.mp hfm] at hfx
        cases hfx
    · exact mem_sellos.mpr (Or.inr hu)
  | anota ok hb =>
    refine h.of_subset (fun x hx => ?_) (fun _ => hsame) le_rfl
    rcases mem_sellos.mp hx with ⟨f, hfm, hfx⟩ | hu
    · obtain ⟨g, hg, rfl⟩ := List.mem_map.mp hfm
      refine mem_sellos.mpr (Or.inl ⟨g, hg, ?_⟩)
      rw [← hfx]
      split <;> rfl
    · exact mem_sellos.mpr (Or.inr hu)
  | reinicia =>
    refine h.of_subset (fun x hx => ?_) (fun _ ht => absurd ht List.not_mem_nil)
      le_rfl
    rcases mem_sellos.mp hx with hf | ⟨u, hum, -⟩
    · exact mem_sellos.mpr (Or.inl hf)
    · exact absurd hum List.not_mem_nil

theorem orden_inicial : Orden inicial := by
  refine ⟨?_, ?_, ?_, ?_⟩ <;> simp [inicial, Sistema.sellos]

theorem sello?_of_clientMsg {f : Fila} (h : f.clientMsg) :
    f.direction = .received ∧ f.sello? = some ⟨f.clave, f.direction, f.id, f.llegada⟩ := by
  obtain ⟨hd, hb⟩ : f.direction = .received ∧ f.isBot = false := by
    simpa [Fila.clientMsg] using h
  exact ⟨hd, by simp [Fila.sello?, hb]⟩

theorem sello?_of_salesmanMsg {f : Fila} (h : f.salesmanMsg) :
    f.direction = .sent ∧ f.sello? = some ⟨f.clave, f.direction, f.id, f.llegada⟩ := by
  obtain ⟨hd, hb⟩ : f.direction = .sent ∧ f.isBot = false := by
    simpa [Fila.salesmanMsg] using h
  exact ⟨hd, by simp [Fila.sello?, hb]⟩

/-- A message of the client and one of the salesman never share an id. -/
theorem ids_ne (h : Numerado s) {c v : Fila} (hc : c ∈ s.filas) (hv : v ∈ s.filas)
    (hcm : c.clientMsg) (hvm : v.salesmanMsg) (hk : c.clave = v.clave) : c.id ≠ v.id := by
  intro hid
  have hcv := h.fila_eq hc hv hk hid
  have hd := (sello?_of_clientMsg hcm).1
  rw [hcv, (sello?_of_salesmanMsg hvm).1] at hd
  cases hd

/-- What the ingest owes a conversation: a message of the client that came before one
of the salesman has the smaller id, and no turn reads it as pending. -/
def KeepsOrder (s : Sistema) : Prop :=
  ∀ c ∈ s.filas, ∀ v ∈ s.filas, c.clientMsg → v.salesmanMsg → c.clave = v.clave →
    c.llegada < v.llegada →
      c.id ≤ v.id ∧ ∀ cfg enabled, c ∉ (s.lectura cfg c.clave enabled).pending

theorem not_pending_of_lt {c v : Fila} (hv : v ∈ s.filas) (hs : v.salesmanMsg)
    (hk : c.clave = v.clave) (hlt : c.id < v.id) (enabled : Bool) :
    c ∉ (s.lectura cfg c.clave enabled).pending := by
  intro hc
  obtain ⟨hh, -, -, hcur⟩ := mem_pending.mp hc
  have hvh : v ∈ s.loadHistory cfg c.clave :=
    mem_loadHistory_of_lt hh (mem_conversacion.mpr ⟨hv, hk.symm⟩) hlt
  have hle : v.id ≤ (s.lectura cfg c.clave enabled).lastSalesmanId := le_lastSalesmanId hvh hs
  omega

/-- As long as no message of the salesman takes its id before an earlier one of the
client, every reachable table keeps the order of the stream. -/
theorem ingest_keepsOrder
    (h : Reachable (paso cfg) (fun s a => enOrden s a = true) inicial s) : KeepsOrder s := by
  have hord : Orden s := h.invariant_with (fun _ => reachable_numerado) orden_inicial
    fun _ _ _ hn hc hs hi => orden_paso hn hc hs hi
  intro c hc v hv hcm hvm hk hlt
  obtain ⟨hcd, hcs⟩ := sello?_of_clientMsg hcm
  obtain ⟨hvd, hvs⟩ := sello?_of_salesmanMsg hvm
  have hid : c.id < v.id := hord.orden _ (mem_sellos.mpr (Or.inl ⟨c, hc, hcs⟩)) _
    (mem_sellos.mpr (Or.inl ⟨v, hv, hvs⟩)) hcd hvd hk hlt
  exact ⟨hid.le, fun cfg enabled => not_pending_of_lt hv hvm hk hid enabled⟩

/-- The conversation of the runs below. -/
def cliente : Clave := ⟨.whatsapp, "600111222", "600999888"⟩

/-- A question and the answer of the salesman, stored as they came. -/
def runInOrder : List Accion :=
  [.llega cliente .received, .llega cliente .sent, .prepara 0 "hola", .prepara 1 "te llamo",
    .inserta 0, .inserta 1, .confirma 1, .confirma 0]

theorem keepsOrder_of_runInOrder :
    ∃ s, replay (paso (.porDefecto .latin)) enOrden inicial runInOrder = some s ∧
      s.filas.length = 2 ∧ KeepsOrder s := by
  refine ⟨(replay (paso (.porDefecto .latin)) enOrden inicial runInOrder).get (by decide),
    by simp, by decide, ?_⟩
  exact ingest_keepsOrder (reachable_get runInOrder (by decide))

/-- A voice note of the client is still being transcribed when the salesman's answer,
which came later, is stored: the note gets the larger id and stays pending. -/
def runVoiceNote : List Accion :=
  [.llega cliente .received, .llega cliente .sent, .prepara 1 "ya te llamo", .inserta 1, .confirma 1,
    .avanza 20, .prepara 0 "[Audio transcrito]: ponme 6 del kajal", .inserta 0, .confirma 0]

theorem voice_note_overtaken :
    ¬ ∀ s, Reachable (paso (.porDefecto .latin)) Libre inicial s → KeepsOrder s := by
  intro h
  have hk := h _ (reachable_run runVoiceNote (by decide))
  have hle := (hk { id := 2, clave := cliente, message := "[Audio transcrito]: ponme 6 del kajal"
                    direction := .received, isBot := false, timestamp := 20, llegada := 0 } (by decide)
    { id := 1, clave := cliente, message := "ya te llamo", direction := .sent, isBot := false
      timestamp := 0, llegada := 1 } (by decide) (by decide) (by decide) rfl (by decide)).1
  revert hle
  decide

end Chatlink.Conversation
