import Chatlink.Conversation.Arrivals

/-!
# Speaking over the salesman

A turn checks once, before its commit, that the salesman has not written, and what it compares
are the ids of the rows that are visible then. The reply waits in the table for the end of the
tick, and for later ticks when the transport fails, and nobody looks again. What has been written
is what has come on the stream, stored or not; what leaves is never stale as long as the table
shows each check what the salesman wrote, and he writes nothing while a reply is on its way.
-/
namespace Chatlink.Conversation

open Transition

variable {cfg : Config}

/-- Whatever the salesman wrote in the conversation came before one of these messages. -/
def Calla (escrito : List (Clave × Direction)) (k : Clave) (ms : List Fila) : Prop :=
  ∀ n, escrito[n]? = some (k, .sent) → ∃ m ∈ ms, n < m.llegada

theorem Calla.llega {escrito : List (Clave × Direction)} {k : Clave} {ms : List Fila}
    (h : Calla escrito k ms) {xs : List (Clave × Direction)} (hx : (k, .sent) ∉ xs) :
    Calla (escrito ++ xs) k ms := by
  intro n hn
  rcases Nat.lt_or_ge n escrito.length with hlt | hge
  · exact h n (List.getElem?_append_left hlt ▸ hn)
  · rw [List.getElem?_append_right hge] at hn
    exact absurd (List.mem_of_getElem? hn) hx

/-! ## Replies on their way -/

/-- A reply that has passed the check and has not been delivered: its conversation and
the newest message it answers. -/
abbrev PorSalir := Clave × ℕ

def Fila.porSalir (f : Fila) : PorSalir := (f.clave, f.contesta)

@[grind =] def Bucle.porSalir : Bucle → List PorSalir
  | comprobado _ l reply _ _ => if reply.isEmpty then [] else [(l.clave, l.newestId)]
  | enviando _ rows => rows.map Fila.porSalir
  | entregado _ _ rows => rows.map Fila.porSalir
  | _ => []

def Sistema.porSalir (s : Sistema) : List PorSalir :=
  (s.filas.filter Fila.enCola).map Fila.porSalir ++ s.bucle.porSalir

theorem mem_porSalir {s : Sistema} {x : PorSalir} : x ∈ s.porSalir ↔
    (∃ f ∈ s.filas, f.enCola ∧ f.porSalir = x) ∨ x ∈ s.bucle.porSalir := by
  simp [Sistema.porSalir, and_assoc]

/-- The turn that answered up to the message `x.2` of the conversation `x.1`: the messages it read
are the client's, and the salesman has written nothing after the newest of them. -/
def Oido.Sola (o : Oido) (x : PorSalir) : Prop :=
  ∃ r ∈ o.sistema.registro, r.clave = x.1 ∧ r.newestId = x.2 ∧ Leidos o.escrito x.1 r.pending ∧
    Calla o.escrito x.1 r.pending

/-- What coverage asks: when the loop is about to hand a reply to the transport, the
salesman has written nothing after the newest message it answers. -/
def SpeaksAlone (o : Oido) : Prop :=
  ∀ c row rows, o.sistema.bucle = .enviando c (row :: rows) → o.Sola row.porSalir

/-- The table shows the check what the salesman wrote after the messages that were read: none of
his messages is still to be stored, was dropped, or was stored before those. -/
def Oido.alDia (o : Oido) (l : Lectura) : Bool :=
  (List.range o.escrito.length).all fun n =>
    o.escrito[n]? ≠ some (l.clave, .sent) || (l.pending.any fun m => n < m.llegada) ||
      o.sistema.filas.any fun v =>
        v.salesmanMsg && v.clave = l.clave && v.llegada = n && l.lastSalesmanId < v.id

/-- The salesman writes nothing in a conversation while a reply is on its way, and a reply is
checked against a table that shows what he has written. -/
def sinCruce (o : Oido) : Accion → Bool
  | .llega k d => d = .received || o.sistema.porSalir.all fun x => x.1 ≠ k
  | .comprueba reply _ =>
    match o.sistema.bucle with
    | .agente _ l _ => reply.isEmpty || o.alDia l
    | _ => true
  | _ => true

/-- The invariant: the salesman has written nothing after what a reply on its way answers. -/
structure Cubierto (o : Oido) : Prop where
  cola : ∀ f ∈ o.sistema.filas, f.enCola → o.Sola f.porSalir
  enMano : ∀ c rows, (o.sistema.bucle = .enviando c rows ∨
    ∃ row, o.sistema.bucle = .entregado c row rows) → ∀ f ∈ rows, o.Sola f.porSalir
  comprobado : ∀ q l reply optOut ks, o.sistema.bucle = .comprobado q l reply optOut ks →
    reply.isEmpty = false → Calla o.escrito l.clave l.pending

theorem cubierto_inicial : Cubierto {} := by
  refine ⟨?_, ?_, ?_⟩ <;> simp [inicial]

/-- A check that is passed on such a table finds the salesman silent. -/
theorem calla_of_alDia {o : Oido} {l : Lectura} (h : o.alDia l)
    (hn : o.sistema.newer l.clave ≤ l.lastSalesmanId) : Calla o.escrito l.clave l.pending := by
  intro n hw
  have hlt : n < o.escrito.length := (List.getElem?_eq_some_iff.mp hw).1
  have hall := List.all_eq_true.mp h n (List.mem_range.mpr hlt)
  simp only [hw, ne_eq, not_true_eq_false, decide_false, Bool.false_or, Bool.or_eq_true,
    List.any_eq_true, Bool.and_eq_true, decide_eq_true_eq] at hall
  rcases hall with ⟨m, hm, hlm⟩ | ⟨v, hv, ⟨⟨hs, hk⟩, -⟩, hid⟩
  · exact ⟨m, hm, hlm⟩
  · exact absurd (le_newer hv hk hs) (by omega)

/-- Moves of the loop: what is on its way was on its way, or has just passed the check. -/
theorem cubierto_avance {o : Oido} {a : Accion} {b : Bucle} (hc : sinCruce o a) (h : Cubierto o)
    (hb : Avance cfg o.sistema a b) : Cubierto ⟨{ o.sistema with bucle := b }, o.escrito⟩ := by
  refine ⟨h.cola, ?_, ?_⟩
  · rintro c rows hrows f hf
    cases hb with
    | carga c' =>
      rcases hrows with heq | ⟨row, heq⟩
      · obtain ⟨-, rfl⟩ := Bucle.enviando.inj heq
        obtain ⟨hfm, hq⟩ := List.mem_filter.mp ((List.mem_insertionSort _).mp hf)
        exact h.cola f hfm (Bool.and_eq_true_iff.mp hq).2
      · cases heq
    | @entrega _ c' row' rows' hb =>
      rcases hrows with heq | ⟨row, heq⟩
      · cases heq
      · obtain ⟨-, -, rfl⟩ := Bucle.entregado.inj heq
        exact h.enMano c' _ (.inl hb) f (List.mem_cons_of_mem _ hf)
    | _ =>
      rcases hrows with heq | ⟨row, heq⟩
      · cases heq
      · cases heq
  · intro q l reply optOut ks heq hr
    cases hb with
    | @comprueba q' l' ks' reply' optOut' hb hn =>
      obtain ⟨-, rfl, rfl, -, -⟩ := Bucle.comprobado.inj heq
      have hdia : o.alDia l' := by simpa [sinCruce, hb, hr] using hc
      exact calla_of_alDia hdia hn
    | _ => cases heq

theorem cubierto_paso {o o' : Oido} {a : Accion} (hc : sinCruce o a) (hp : o.paso cfg a = some o')
    (ho : o.Apuntado) (h : Cubierto o) : Cubierto o' := by
  rcases oido_cases hp with ⟨k, d, rfl, rfl⟩ | ⟨s, hs, ha, rfl⟩
  · -- the salesman writes, and no reply of the conversation is on its way
    have hnew {x : PorSalir} (hx : x ∈ o.sistema.porSalir) : (x.1, Direction.sent) ∉ [(k, d)] := by
      intro hmem
      obtain ⟨hk, rfl⟩ := Prod.mk.inj (List.mem_singleton.mp hmem)
      simp only [sinCruce, reduceCtorEq, decide_false, Bool.false_or, List.all_eq_true] at hc
      simpa [hk] using hc x hx
    have hsola {x : PorSalir} (hx : x ∈ o.sistema.porSalir) (hs : o.Sola x) :
        Oido.Sola ⟨{ o.sistema with
          tareas := o.sistema.tareas ++
            [{ llegada := o.sistema.llegadas, clave := k, direction := d }]
          llegadas := o.sistema.llegadas + 1 }, o.escrito ++ [(k, d)]⟩ x := by
      obtain ⟨r, hr, hk, hn, hleidos, hcalla⟩ := hs
      refine ⟨r, hr, hk, hn, fun m hm => ?_, hcalla.llega (hnew hx)⟩
      rw [List.getElem?_append_left (List.getElem?_eq_some_iff.mp (hleidos m hm)).1]
      exact hleidos m hm
    refine ⟨fun f hf hq => ?_, fun c rows hrows f hf => ?_, fun q l reply optOut ks heq hr => ?_⟩
    · exact hsola (mem_porSalir.mpr (.inl ⟨f, hf, hq, rfl⟩)) (h.cola f hf hq)
    · refine hsola (mem_porSalir.mpr (.inr ?_)) (h.enMano c rows hrows f hf)
      rcases hrows with heq | ⟨row, heq⟩
      · exact heq ▸ List.mem_map_of_mem hf
      · exact heq ▸ List.mem_map_of_mem hf
    · refine (h.comprobado q l reply optOut ks heq hr).llega (hnew (x := (l.clave, l.newestId)) ?_)
      refine mem_porSalir.mpr (.inr ?_)
      have heq' : o.sistema.bucle = .comprobado q l reply optOut ks := heq
      simp [heq', Bucle.porSalir, hr]
  · -- the record of the answered turns only grows
    have hmono {rs : List Registro} {s' : Sistema} (hr : s'.registro = o.sistema.registro ++ rs)
        {x : PorSalir} (hx : o.Sola x) : Oido.Sola ⟨s', o.escrito⟩ x := by
      obtain ⟨r, hmem, hrest⟩ := hx
      exact ⟨r, hr ▸ List.mem_append_left _ hmem, hrest⟩
    cases hs with
    | llega k d => exact absurd rfl (ha k d)
    | reloj d => exact ⟨h.cola, h.enMano, h.comprobado⟩
    | quita i => exact ⟨h.cola, h.enMano, h.comprobado⟩
    | prepara message ht hf => exact ⟨h.cola, h.enMano, h.comprobado⟩
    | inserta ht hf => exact ⟨h.cola, h.enMano, h.comprobado⟩
    | @confirma i t message ts id ht hf =>
      refine ⟨fun f hf hq => ?_, h.enMano, h.comprobado⟩
      rcases List.mem_append.mp hf with hf | hf
      · exact h.cola f hf hq
      · obtain rfl := List.mem_singleton.mp hf
        cases hq
    | avanza hb => exact cubierto_avance hc h hb
    | done x fin hb =>
      exact ⟨fun f hf hq => hmono rfl (h.cola f hf hq), by simp [Sistema.done], by simp [Sistema.done]⟩
    | @responde q l reply optOut ks x hb hr =>
      refine ⟨fun f hf hq => ?_, by simp [Sistema.done], by simp [Sistema.done]⟩
      rcases List.mem_append.mp hf with hf | hf
      · exact hmono rfl (h.cola f hf hq)
      · obtain rfl := List.mem_singleton.mp hf
        refine ⟨_, List.mem_append_right _ (List.mem_singleton_self _), rfl, rfl, ?_, ?_⟩
        · exact ho.enCurso q l ks (by rw [hb]; rfl)
        · exact h.comprobado q l reply optOut ks hb hr
    | @anota c row rows ok hb =>
      refine ⟨fun f hf hq => ?_, fun c' rows' hrows f hf => ?_, by simp⟩
      · -- delivery only touches the status and the attempts of rows that were queued
        obtain ⟨g, hg, status, attempts, rfl, hgq⟩ := mem_trasEnvio hf
        exact hmono (List.append_nil _).symm (h.cola g hg (hgq hq))
      · rcases hrows with heq | ⟨row', heq⟩
        · obtain ⟨-, rfl⟩ := Bucle.enviando.inj heq
          exact h.enMano c rows (.inr ⟨row, hb⟩) f hf
        · cases heq
    | reinicia => exact ⟨h.cola, by simp, by simp⟩

/-- As long as the salesman writes nothing while a reply is on its way, and every reply is checked
against a table that shows what he has written, no reply is handed over after he has written. -/
theorem coverage_speaksAlone {o : Oido}
    (h : Reachable (Oido.paso cfg) (fun o a => sinCruce o a = true) {} o) : SpeaksAlone o := by
  have hap (o : Oido) (h : Reachable (Oido.paso cfg) (fun o a => sinCruce o a = true) {} o) :
      o.Apuntado := h.invariant apuntado_inicial fun _ _ _ _ hs hi => apuntado_paso hs hi
  have hcub : Cubierto o := h.invariant_with hap cubierto_inicial
    fun _ _ _ ho hc hs hi => cubierto_paso hc hs ho hi
  intro c row rows hb
  exact hcub.enMano c (row :: rows) (.inl hb) row List.mem_cons_self

/-- A message, the wait and an answered turn, up to the reply in the hands of the loop. -/
def runAnswered : List Accion :=
  [.llega cliente .received, .prepara 0 "ponme 6 del kajal", .inserta 0, .confirma 0, .avanza 900,
    .tick [cliente], .lee true, .criba true, .comprueba "apuntado" false, .escribe, .carga]

theorem speaksAlone_of_runAnswered :
    ∃ o, replay (Oido.paso (.porDefecto .latin)) sinCruce {} runAnswered = some o ∧
      o.sistema.bucle.porSalir = [(cliente, 1)] ∧ SpeaksAlone o := by
  refine ⟨(replay (Oido.paso (.porDefecto .latin)) sinCruce {} runAnswered).get (by decide),
    by simp, by decide, ?_⟩
  exact coverage_speaksAlone (reachable_get runAnswered (by decide))

/-- The transport refuses the reply once, the salesman answers, and the next tick hands
the same reply over again. -/
def runRetried : List Accion :=
  runAnswered ++ [.entrega, .anota false, .carga, .duerme, .llega cliente .sent,
    .prepara 0 "ya te lo apunto yo", .inserta 0, .confirma 0, .avanza 30, .tick [], .carga]

theorem retried_reply_over_salesman :
    ¬ ∀ o, Reachable (Oido.paso (.porDefecto .latin)) Libre {} o → SpeaksAlone o := by
  intro h
  obtain ⟨r, hr, -, -, -, hcalla⟩ := h _ (reachable_run runRetried (by decide)) .whatsapp
    { id := 2, clave := cliente, message := "apuntado", direction := .sent, isBot := true
      timestamp := 900, status := .queued, attempts := 1, contesta := 1 } [] (by decide)
  obtain ⟨m, hm, hlt⟩ := hcalla 1 (by decide)
  have hold : ∀ r ∈ ((run (Oido.paso (.porDefecto .latin)) {} runRetried).get (by decide)).sistema.registro,
      ∀ m ∈ r.pending, m.llegada ≤ 1 := by decide
  exact absurd hlt (Nat.not_lt.mpr (hold r hr m hm))

end Chatlink.Conversation
