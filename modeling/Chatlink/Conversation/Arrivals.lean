import Chatlink.Conversation.Ingest

/-!
# What has come on the stream

The system only counts the messages that come. With the record of who wrote each of them, whatever
a row, a task or a turn says of a message can be looked up at its place: a stored message stands
where it came, and what a turn reads of the client was written by the client.
-/
namespace Chatlink.Conversation

variable {cfg : Config}

/-- The system and everything that has come on the stream, in its order. -/
structure Oido where
  sistema : Sistema := inicial
  escrito : List (Clave × Direction) := []

/-- What a step brings on the stream. -/
def Accion.llegada? : Accion → Option (Clave × Direction)
  | .llega k d => some (k, d)
  | _ => none

/-- The step of the system, with the record of the stream. -/
def Oido.paso (cfg : Config) (o : Oido) (a : Accion) : Option Oido :=
  (Conversation.paso cfg o.sistema a).map fun s => ⟨s, o.escrito ++ a.llegada?.toList⟩

/-- A step writes a message on the stream, or it is one of the others and the stream is as it was. -/
theorem oido_cases {o o' : Oido} {a : Accion} (h : o.paso cfg a = some o') :
    (∃ k d, a = .llega k d ∧ o' =
      ⟨{ o.sistema with
        tareas := o.sistema.tareas ++ [{ llegada := o.sistema.llegadas, clave := k, direction := d }]
        llegadas := o.sistema.llegadas + 1 }, o.escrito ++ [(k, d)]⟩) ∨
    ∃ s, Paso cfg o.sistema a s ∧ (∀ k d, a ≠ .llega k d) ∧ o' = ⟨s, o.escrito⟩ := by
  obtain ⟨s, hs, rfl⟩ := Option.map_eq_some_iff.mp h
  cases a with
  | llega k d =>
    obtain rfl := Option.some.inj hs
    exact .inl ⟨k, d, rfl, rfl⟩
  | _ => exact .inr ⟨s, paso_cases hs, by simp, by simp [Accion.llegada?]⟩

/-! ## Every message stands at its place of the stream -/

/-- The messages of the client that were read at these places were written there. -/
def Leidos (escrito : List (Clave × Direction)) (k : Clave) (ms : List Fila) : Prop :=
  ∀ m ∈ ms, escrito[m.llegada]? = some (k, .received)

structure Oido.Apuntado (o : Oido) : Prop where
  llegadas : o.sistema.llegadas = o.escrito.length
  tareas : ∀ t ∈ o.sistema.tareas, o.escrito[t.llegada]? = some (t.clave, t.direction)
  filas : ∀ f ∈ o.sistema.filas, f.isBot = false →
    o.escrito[f.llegada]? = some (f.clave, f.direction)
  enCurso : ∀ q l ks, o.sistema.bucle.enCurso = some (q, l, ks) → Leidos o.escrito l.clave l.pending
  registro : ∀ r ∈ o.sistema.registro, Leidos o.escrito r.clave r.pending

theorem leidos_lectura {o : Oido} (h : o.Apuntado) (k : Clave) (enabled : Bool) :
    Leidos o.escrito k (o.sistema.lectura cfg k enabled).pending := by
  intro m hm
  obtain ⟨hh, hc, -, -⟩ := mem_pending.mp hm
  obtain ⟨hf, rfl⟩ := mem_conversacion.mp (mem_of_mem_loadHistory hh)
  have hclient : m.direction = .received ∧ m.isBot = false := by simpa [Fila.clientMsg] using hc
  rw [← hclient.1]
  exact h.filas m hf hclient.2

theorem apuntado_of_paso {o : Oido} {a : Accion} {s : Sistema} (hp : Paso cfg o.sistema a s)
    (ha : ∀ k d, a ≠ .llega k d) (h : o.Apuntado) : Oido.Apuntado ⟨s, o.escrito⟩ := by
  cases hp with
  | llega k d => exact absurd rfl (ha k d)
  | reloj d => exact ⟨h.llegadas, h.tareas, h.filas, h.enCurso, h.registro⟩
  | quita i =>
    exact ⟨h.llegadas, fun t ht => h.tareas t (List.mem_of_mem_eraseIdx ht), h.filas, h.enCurso,
      h.registro⟩
  | @prepara i t message ht hf =>
    refine ⟨h.llegadas, fun u hu => ?_, h.filas, h.enCurso, h.registro⟩
    rcases List.mem_or_eq_of_mem_set hu with hu | rfl
    · exact h.tareas u hu
    · exact h.tareas t (List.mem_of_getElem? ht)
  | @inserta i t message ts ht hf =>
    refine ⟨h.llegadas, fun u hu => ?_, h.filas, h.enCurso, h.registro⟩
    rcases List.mem_or_eq_of_mem_set hu with hu | rfl
    · exact h.tareas u hu
    · exact h.tareas t (List.mem_of_getElem? ht)
  | @confirma i t message ts id ht hf =>
    refine ⟨h.llegadas, fun u hu => h.tareas u (List.mem_of_mem_eraseIdx hu), fun f hf hb => ?_,
      h.enCurso, h.registro⟩
    rcases List.mem_append.mp hf with hf | hf
    · exact h.filas f hf hb
    · obtain rfl := List.mem_singleton.mp hf
      exact h.tareas t (List.mem_of_getElem? ht)
  | avanza hb =>
    refine ⟨h.llegadas, h.tareas, h.filas, fun q l ks hl => ?_, h.registro⟩
    cases hb with
    | @lee q' k ks' enabled hb hp =>
      obtain ⟨-, rfl, -⟩ : q' = q ∧ o.sistema.lectura cfg k enabled = l ∧ ks' = ks := by
        simpa [Bucle.enCurso] using hl
      exact leidos_lectura h k enabled
    | @criba _ q' l' ks' x hb =>
      obtain ⟨-, rfl, -⟩ : q' = q ∧ { l' with sesion := x } = l ∧ ks' = ks := by
        simpa [Bucle.enCurso] using hl
      exact h.enCurso q' l' ks' (by rw [hb]; rfl)
    | @comprueba q' l' ks' reply optOut hb hn =>
      obtain ⟨-, rfl, -⟩ : q' = q ∧ l' = l ∧ ks' = ks := by simpa [Bucle.enCurso] using hl
      exact h.enCurso q' l' ks' (by rw [hb]; rfl)
    | _ => cases hl
  | @done _ q l ks x fin hb =>
    refine ⟨h.llegadas, h.tareas, h.filas, fun q l ks hl => (nomatch hl), fun r hr => ?_⟩
    rcases List.mem_append.mp hr with hr | hr
    · exact h.registro r hr
    · obtain rfl := List.mem_singleton.mp hr
      exact h.enCurso q l ks hb
  | @responde q l reply optOut ks x hb hr =>
    refine ⟨h.llegadas, h.tareas, fun f hf hbot => ?_, fun q l ks hl => (nomatch hl), fun r hr => ?_⟩
    · rcases List.mem_append.mp hf with hf | hf
      · exact h.filas f hf hbot
      · obtain rfl := List.mem_singleton.mp hf
        cases hbot
    · rcases List.mem_append.mp hr with hr | hr
      · exact h.registro r hr
      · obtain rfl := List.mem_singleton.mp hr
        exact h.enCurso q l ks (by rw [hb]; rfl)
  | @anota c row rows ok hb =>
    refine ⟨h.llegadas, h.tareas, fun f hf hbot => ?_, fun q l ks hl => (nomatch hl), h.registro⟩
    obtain ⟨g, hg, status, attempts, rfl, -⟩ := mem_trasEnvio hf
    exact h.filas g hg hbot
  | reinicia =>
    exact ⟨h.llegadas, fun t ht => absurd ht List.not_mem_nil, h.filas, fun q l ks hl => (nomatch hl),
      h.registro⟩

theorem apuntado_paso {o o' : Oido} {a : Accion} (hp : o.paso cfg a = some o') (h : o.Apuntado) :
    o'.Apuntado := by
  rcases oido_cases hp with ⟨k, d, -, rfl⟩ | ⟨s, hs, ha, rfl⟩
  · -- what was written stays where it was
    have hkeep {n : ℕ} {x : Clave × Direction} (hn : o.escrito[n]? = some x) :
        (o.escrito ++ [(k, d)])[n]? = some x := by
      rw [List.getElem?_append_left (List.getElem?_eq_some_iff.mp hn).1]
      exact hn
    refine ⟨by simp [h.llegadas], fun t ht => ?_, fun f hf hb => hkeep (h.filas f hf hb),
      fun q l ks hl m hm => hkeep (h.enCurso q l ks hl m hm),
      fun r hr m hm => hkeep (h.registro r hr m hm)⟩
    rcases List.mem_append.mp ht with ht | ht
    · exact hkeep (h.tareas t ht)
    · obtain rfl := List.mem_singleton.mp ht
      simp [h.llegadas]
  · exact apuntado_of_paso hs ha h

theorem apuntado_inicial : ({} : Oido).Apuntado :=
  ⟨rfl, by simp [inicial], by simp [inicial], by simp [inicial, Bucle.enCurso], by simp [inicial]⟩

end Chatlink.Conversation
