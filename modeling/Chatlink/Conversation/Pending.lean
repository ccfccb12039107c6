import Chatlink.Conversation.Ingest

/-!
# No client message is skipped

A turn moves the cursor to the newest message it read, over everything below. What it
read is a window of the history, and the table may still lack a row whose id is already
taken. Nothing is skipped as long as every turn finds all unanswered messages of its
conversation in the window and none of them uncommitted.
-/
namespace Chatlink.Conversation

open Transition

variable {cfg : Config} {s s' : Sistema} {k : Clave}

/-- The stated reasons to leave messages unanswered. -/
def Fin.excusa : Fin → Bool
  | .deshabilitado => true
  | .optOut => true
  | .noEsCliente => true
  | _ => false

/-- The message `i` of the conversation `k` is taken care of: the salesman has written
after it, a turn had it in its `current_message`, or a turn ended for a stated reason. -/
def Covered (s : Sistema) (k : Clave) (i : ℕ) : Prop :=
  (∃ v ∈ s.filas, v.salesmanMsg ∧ v.clave = k ∧ i < v.id) ∨
    ∃ r ∈ s.registro, r.clave = k ∧
      (i ∈ r.pending.map Fila.id ∨ (r.fin.excusa ∧ i ≤ r.newestId))

instance (s : Sistema) (k : Clave) (i : ℕ) : Decidable (Covered s k i) :=
  inferInstanceAs (Decidable (_ ∨ _))

/-- Nothing below the cursor of a conversation has been skipped. -/
def NothingSkipped (s : Sistema) : Prop :=
  ∀ m ∈ s.filas, m.clientMsg → m.id ≤ (s.sesiones m.clave).lastAnsweredId → Covered s m.clave m.id

/-- When a turn reads, every client message above the cursor and above the salesman's
last message is in the window, and no client message below one it sees is uncommitted. -/
def leeTodo (cfg : Config) (s : Sistema) : Accion → Bool
  | .lee _ =>
    match s.bucle with
    | .turnos _ (k :: _) => ((s.conversacion k).filter Fila.clientMsg).all fun m =>
        (m.id ≤ (s.sesiones k).lastAnsweredId || m.id ≤ s.newer k ||
          (s.loadHistory cfg k).contains m) &&
        s.tareas.all fun t => t.clave ≠ k || t.direction = .sent || t.id?.all fun id => m.id < id
    | _ => true
  | _ => true

theorem leeTodo_lee {q : Consulta} {ks : List Clave} {enabled : Bool}
    (h : leeTodo cfg s (.lee enabled)) (hb : s.bucle = .turnos q (k :: ks)) {m : Fila}
    (hm : m ∈ s.filas) (hk : m.clave = k) (hc : m.clientMsg) :
    (m.id ≤ (s.sesiones k).lastAnsweredId ∨ m.id ≤ s.newer k ∨ m ∈ s.loadHistory cfg k) ∧
      ∀ t ∈ s.tareas, t.clave = k → t.direction = .received → ∀ id, t.id? = some id → m.id < id := by
  simp only [leeTodo, hb, List.all_eq_true] at h
  have hm' := h m (List.mem_filter.mpr ⟨mem_conversacion.mpr ⟨hm, hk⟩, hc⟩)
  simp only [Bool.and_eq_true, Bool.or_eq_true, decide_eq_true_eq, List.contains_iff_mem,
    List.all_eq_true, or_assoc] at hm'
  refine ⟨hm'.1, fun t ht htk htd id hid => ?_⟩
  simpa [htk, htd, hid] using hm'.2 t ht

theorem Covered.mono {i : ℕ} (h : Covered s k i)
    (hf : ∀ v ∈ s.filas, v.salesmanMsg → ∃ w ∈ s'.filas, w.salesmanMsg ∧ w.clave = v.clave ∧ w.id = v.id)
    (hr : ∀ r ∈ s.registro, r ∈ s'.registro) : Covered s' k i := by
  rcases h with ⟨v, hv, hs, hk, hlt⟩ | ⟨r, hrm, hk, h⟩
  · obtain ⟨w, hw, hws, hwk, hwid⟩ := hf v hv hs
    exact Or.inl ⟨w, hw, hws, hwk.trans hk, hwid ▸ hlt⟩
  · exact Or.inr ⟨r, hr r hrm, hk, h⟩

/-- A turn in progress may move the cursor: below its newest message everything is
covered or was read, and no message of the conversation is still to come there. -/
structure TurnoCompleto (s : Sistema) (l : Lectura) : Prop where
  below : ∀ m ∈ s.filas, m.clientMsg → m.clave = l.clave → m.id ≤ l.newestId →
    Covered s l.clave m.id ∨ m.id ∈ l.pending.map Fila.id
  enVuelo : ∀ t ∈ s.tareas, t.direction = .received → t.clave = l.clave →
    ∀ id, t.id? = some id → l.newestId < id
  siguiente : l.newestId < s.siguiente l.clave.canal

structure Atendido (s : Sistema) : Prop where
  below : NothingSkipped s
  enVuelo : ∀ t ∈ s.tareas, t.direction = .received → ∀ id, t.id? = some id →
    (s.sesiones t.clave).lastAnsweredId < id
  siguiente : ∀ k, (s.sesiones k).lastAnsweredId < s.siguiente k.canal
  turno : ∀ q l ks, s.bucle.enCurso = some (q, l, ks) → TurnoCompleto s l

theorem atendido_inicial : Atendido inicial := by
  refine ⟨?_, ?_, ?_, ?_⟩ <;> simp [inicial, NothingSkipped, Bucle.enCurso]

/-! ## Ingest -/

/-- A step that leaves the sessions, the log and the loop alone. -/
theorem atendido_ingest (h : Atendido s) (hses : s'.sesiones = s.sesiones)
    (hreg : s'.registro = s.registro) (hb : s'.bucle.enCurso = s.bucle.enCurso)
    (hn : ∀ c, s.siguiente c ≤ s'.siguiente c)
    (hold : ∀ v ∈ s.filas, v.salesmanMsg →
      ∃ w ∈ s'.filas, w.salesmanMsg ∧ w.clave = v.clave ∧ w.id = v.id)
    (hf : ∀ m ∈ s'.filas, m.clientMsg →
      (∃ m' ∈ s.filas, m'.clientMsg ∧ m'.clave = m.clave ∧ m'.id = m.id) ∨
      (∃ t ∈ s.tareas, t.direction = .received ∧ t.clave = m.clave ∧ t.id? = some m.id))
    (ht : ∀ t ∈ s'.tareas, t.direction = .received → ∀ id, t.id? = some id →
      (∃ u ∈ s.tareas, u.direction = .received ∧ u.clave = t.clave ∧ u.id? = some id) ∨
        s.siguiente t.clave.canal ≤ id) : Atendido s' := by
  have hcov {k : Clave} {i : ℕ} (hc : Covered s k i) : Covered s' k i :=
    hc.mono hold fun r hr => by rwa [hreg]
  refine ⟨fun m hm hc hle => ?_, fun t htm hd id hid => ?_, fun k => ?_, fun q l ks hl => ?_⟩
  · rw [hses] at hle
    rcases hf m hm hc with ⟨m', hm', hc', hk', hid'⟩ | ⟨t, htm, hd, hk, hid⟩
    · rw [← hk', ← hid'] at hle ⊢
      exact hcov (h.below m' hm' hc' hle)
    · have hlt := h.enVuelo t htm hd m.id hid
      rw [hk] at hlt
      omega
  · rw [hses]
    rcases ht t htm hd id hid with ⟨u, hu, hud, huk, huid⟩ | hge
    · rw [← huk]
      exact h.enVuelo u hu hud id huid
    · exact lt_of_lt_of_le (h.siguiente t.clave) hge
  · rw [hses]
    exact lt_of_lt_of_le (h.siguiente k) (hn _)
  · rw [hb] at hl
    have hturn := h.turno q l ks hl
    refine ⟨fun m hm hc hk hle => ?_, fun t htm hd hk id hid => ?_,
      lt_of_lt_of_le hturn.siguiente (hn _)⟩
    · rcases hf m hm hc with ⟨m', hm', hc', hk', hid'⟩ | ⟨t, htm, hd, htk, hid⟩
      · rw [← hid'] at hle ⊢
        exact (hturn.below m' hm' hc' (hk'.trans hk) hle).imp_left hcov
      · have hlt := hturn.enVuelo t htm hd (htk.trans hk) m.id hid
        omega
    · rcases ht t htm hd id hid with ⟨u, hu, hud, huk, huid⟩ | hge
      · exact hturn.enVuelo u hu hud (huk.trans hk) id huid
      · rw [hk] at hge
        exact lt_of_lt_of_le hturn.siguiente hge

/-! ## The turn -/

/-- What a complete read finds below its newest message. -/
theorem turnoCompleto_lee {q : Consulta} {ks : List Clave} {enabled : Bool} (hn : Numerado s)
    (h : Atendido s) (hc : leeTodo cfg s (.lee enabled)) (hb : s.bucle = .turnos q (k :: ks))
    (hp : (s.lectura cfg k enabled).pending ≠ []) :
    TurnoCompleto s (s.lectura cfg k enabled) := by
  obtain ⟨n, hnm, hnid⟩ := newestId_mem hp
  obtain ⟨hnh, hnc, -⟩ := mem_pending.mp hnm
  obtain ⟨hnf, hnk⟩ := mem_conversacion.mp (mem_of_mem_loadHistory hnh)
  refine ⟨fun m hm hmc hk hle => ?_, fun t ht hd hk id hid => ?_, ?_⟩
  · by_cases hcur : m.id ≤ (s.sesiones k).lastAnsweredId
    · exact Or.inl (hk ▸ h.below m hm hmc (by rwa [hk]))
    by_cases hs : m.id ≤ s.newer k
    · -- the salesman's newest message is another row, so its id is larger
      refine Or.inl (Or.inl ?_)
      have hne : ((s.conversacion k).filter Fila.salesmanMsg).map Fila.id ≠ [] := by
        intro hnil
        rw [Sistema.newer, hnil] at hs
        have hzero : m.id = 0 := Nat.le_zero.mp hs
        omega
      obtain ⟨v, hv, hvid⟩ := List.mem_map.mp (maximo_mem hne)
      obtain ⟨hvc, hvs⟩ := List.mem_filter.mp hv
      obtain ⟨hvf, hvk⟩ := mem_conversacion.mp hvc
      exact ⟨v, hvf, hvs, hvk,
        lt_of_le_of_ne (hs.trans hvid.ge) (ids_ne hn hm hvf hmc hvs (hk.trans hvk.symm))⟩
    · have hin := (leeTodo_lee hc hb hm hk hmc).1
      have hh : m ∈ s.loadHistory cfg k := (hin.resolve_left hcur).resolve_left hs
      refine Or.inr (List.mem_map_of_mem (mem_pending.mpr ⟨hh, hmc, Nat.lt_of_not_le hcur, ?_⟩))
      exact lt_of_le_of_lt lastSalesmanId_le_newer (Nat.lt_of_not_le hs)
  · rw [← hnid]
    exact (leeTodo_lee hc hb hnf hnk hnc).2 t ht hk hd id hid
  · rw [← hnid]
    have hlt := hn.fila_lt hnf
    rwa [hnk] at hlt

/-- The commit of a turn that may move the cursor. -/
theorem atendido_done (q : Consulta) {l : Lectura} (ks : List Clave) (h : Atendido s) (x : Sesion)
    (fin : Fin) (hl : TurnoCompleto s l) : Atendido (s.done q { l with sesion := x } ks fin) := by
  have hcov {k : Clave} {i : ℕ} (hc : Covered s k i) :
      Covered (s.done q { l with sesion := x } ks fin) k i :=
    hc.mono (fun v hv hs => ⟨v, hv, hs, rfl, rfl⟩) fun r hr => List.mem_append_left _ hr
  have hcursor (k : Clave) : ((s.done q { l with sesion := x } ks fin).sesiones k).lastAnsweredId =
      if k = l.clave then l.newestId else (s.sesiones k).lastAnsweredId := by
    split
    · next hk =>
      rw [hk]
      exact done_lastAnsweredId q { l with sesion := x } ks fin
    · next hk => rw [done_sesion_of_ne q { l with sesion := x } ks fin hk]
  refine ⟨fun m hm hmc hle => ?_, fun t ht hd id hid => ?_, fun k => ?_, fun q' l' ks' hl' => ?_⟩
  · rw [hcursor] at hle
    split at hle
    · next hk =>
      rcases hl.below m hm hmc hk hle with hc | hp
      · exact hk ▸ hcov hc
      · exact Or.inr ⟨_, List.mem_append_right _ (List.mem_singleton.mpr rfl), hk.symm, Or.inl hp⟩
    · exact hcov (h.below m hm hmc hle)
  · rw [hcursor]
    split
    · next hk => exact hl.enVuelo t ht hd hk id hid
    · exact h.enVuelo t ht hd id hid
  · rw [hcursor]
    split
    · next hk => exact hk ▸ hl.siguiente
    · exact h.siguiente k
  · cases hl'

theorem atendido_avance {a : Accion} {b : Bucle} (hn : Numerado s) (h : Atendido s)
    (hc : leeTodo cfg s a) (hb : Avance cfg s a b) : Atendido { s with bucle := b } := by
  have hnew (hl : ∀ q l ks, b.enCurso = some (q, l, ks) → TurnoCompleto s l) :
      Atendido { s with bucle := b } :=
    ⟨h.below, h.enVuelo, h.siguiente, fun q l ks hb' =>
      ⟨(hl q l ks hb').below, (hl q l ks hb').enVuelo, (hl q l ks hb').siguiente⟩⟩
  cases hb with
  | tick hb hks => exact hnew (by simp [Bucle.enCurso])
  | sigue hb => exact hnew (by simp [Bucle.enCurso])
  | @lee q k ks enabled hb hp =>
    refine hnew fun q' l ks' hl => ?_
    obtain ⟨-, rfl, -⟩ : q = q' ∧ s.lectura cfg k enabled = l ∧ ks = ks' := by
      simpa [Bucle.enCurso] using hl
    exact turnoCompleto_lee hn h hc hb hp
  | @criba _ q l ks x hb =>
    refine hnew fun q' l' ks' hl => ?_
    obtain ⟨-, rfl, -⟩ : q = q' ∧ { l with sesion := x } = l' ∧ ks = ks' := by
      simpa [Bucle.enCurso] using hl
    have hturn := h.turno q l ks (by rw [hb]; rfl)
    exact ⟨hturn.below, hturn.enVuelo, hturn.siguiente⟩
  | @comprueba q l ks reply optOut hb hn' =>
    refine hnew fun q' l' ks' hl => ?_
    obtain ⟨-, rfl, -⟩ : q = q' ∧ l = l' ∧ ks = ks' := by simpa [Bucle.enCurso] using hl
    exact h.turno q l ks (by rw [hb]; rfl)
  | carga c => exact hnew (by simp [Bucle.enCurso])
  | entrega hb => exact hnew (by simp [Bucle.enCurso])
  | reposo => exact hnew (by simp [Bucle.enCurso])

theorem atendido_paso {a : Accion} (hn : Numerado s) (hc : leeTodo cfg s a)
    (hp : paso cfg s a = some s') (h : Atendido s) : Atendido s' := by
  have hrows (v : Fila) (hv : v ∈ s.filas) (hs : v.salesmanMsg) :
      ∃ w ∈ s.filas, w.salesmanMsg ∧ w.clave = v.clave ∧ w.id = v.id := ⟨v, hv, hs, rfl, rfl⟩
  have hclient (m : Fila) (hm : m ∈ s.filas) (hcm : m.clientMsg) :
      (∃ m' ∈ s.filas, m'.clientMsg ∧ m'.clave = m.clave ∧ m'.id = m.id) ∨
      (∃ t ∈ s.tareas, t.direction = .received ∧ t.clave = m.clave ∧ t.id? = some m.id) :=
    Or.inl ⟨m, hm, hcm, rfl, rfl⟩
  have hsame (t : Tarea) (ht : t ∈ s.tareas) (hd : t.direction = .received) (id : ℕ)
      (hid : t.id? = some id) :
      (∃ u ∈ s.tareas, u.direction = .received ∧ u.clave = t.clave ∧ u.id? = some id) ∨
        s.siguiente t.clave.canal ≤ id := Or.inl ⟨t, ht, hd, rfl, hid⟩
  cases paso_cases hp with
  | reloj d => exact atendido_ingest h rfl rfl rfl (fun _ => le_rfl) hrows hclient hsame
  | llega k d =>
    refine atendido_ingest h rfl rfl rfl (fun _ => le_rfl) hrows hclient fun t ht hd id hid => ?_
    rcases List.mem_append.mp ht with ht | ht
    · exact hsame t ht hd id hid
    · rw [List.mem_singleton.mp ht] at hid
      cases hid
  | quita i =>
    exact atendido_ingest h rfl rfl rfl (fun _ => le_rfl) hrows hclient fun t ht =>
      hsame t (List.mem_of_mem_eraseIdx ht)
  | prepara message ht hf =>
    refine atendido_ingest h rfl rfl rfl (fun _ => le_rfl) hrows hclient fun t ht hd id hid => ?_
    rcases List.mem_or_eq_of_mem_set ht with ht | rfl
    · exact hsame t ht hd id hid
    · cases hid
  | inserta ht hf =>
    refine atendido_ingest h rfl rfl rfl (fun _ => le_update_succ ..) hrows hclient
      fun u hu hd id hid => ?_
    rcases List.mem_or_eq_of_mem_set hu with hu | rfl
    · exact hsame u hu hd id hid
    · exact Or.inr (Option.some.inj hid).le
  | @confirma i t message ts id ht hf =>
    refine atendido_ingest h rfl rfl rfl (fun _ => le_rfl)
      (fun v hv hs => ⟨v, List.mem_append_left _ hv, hs, rfl, rfl⟩) (fun m hm hcm => ?_)
      fun u hu => hsame u (List.mem_of_mem_eraseIdx hu)
    rcases List.mem_append.mp hm with hm | hm
    · exact hclient m hm hcm
    · obtain rfl := List.mem_singleton.mp hm
      exact Or.inr ⟨t, List.mem_of_getElem? ht, (sello?_of_clientMsg hcm).1, rfl,
        by simp [Tarea.id?, hf, Tarea.fila]⟩
  | avanza ha => exact atendido_avance hn h hc ha
  | @done _ q l ks x fin hb => exact atendido_done q ks h x fin (h.turno q l ks hb)
  | @responde q l reply optOut ks x hb hr =>
    have hd := atendido_done q ks h x .contestado (h.turno q l ks (by rw [hb]; rfl))
    refine atendido_ingest hd rfl rfl rfl (fun _ => le_update_succ ..)
      (fun v hv hs => ⟨v, List.mem_append_left _ hv, hs, rfl, rfl⟩) (fun m hm hcm => ?_)
      fun u hu hud id hid => Or.inl ⟨u, hu, hud, rfl, hid⟩
    rcases List.mem_append.mp hm with hm | hm
    · exact Or.inl ⟨m, hm, hcm, rfl, rfl⟩
    · rw [List.mem_singleton.mp hm] at hcm
      cases hcm
  | @anota c row rows ok hb =>
    have hview (f : Fila) : ∃ g, (if f.clave.canal = c ∧ f.id = row.id then f.trasEnvio cfg ok else f) = g ∧
        g.clientMsg = f.clientMsg ∧ g.salesmanMsg = f.salesmanMsg ∧ g.clave = f.clave ∧ g.id = f.id := by
      refine ⟨_, rfl, ?_⟩
      split <;> exact ⟨rfl, rfl, rfl, rfl⟩
    refine atendido_ingest h rfl rfl (by rw [hb]; rfl) (fun _ => le_rfl) (fun v hv hs => ?_)
      (fun m hm hcm => ?_) hsame
    · obtain ⟨w, hw, -, hws, hwk, hwid⟩ := hview v
      exact ⟨w, List.mem_map.mpr ⟨v, hv, hw⟩, hws.trans hs, hwk, hwid⟩
    · obtain ⟨m₀, hm₀, rfl⟩ := List.mem_map.mp hm
      obtain ⟨g, hg, hgc, -, hgk, hgid⟩ := hview m₀
      rw [hg] at hcm ⊢
      exact Or.inl ⟨m₀, hm₀, hgc ▸ hcm, hgk.symm, hgid.symm⟩
  | reinicia =>
    refine ⟨h.below, fun _ ht => absurd ht List.not_mem_nil, h.siguiente, fun _ _ _ hl => ?_⟩
    cases hl

/-- As long as every turn finds all unanswered messages of its conversation in the
window and committed, the cursor never moves past a message nobody took care of. -/
theorem pending_nothingSkipped
    (h : Reachable (paso cfg) (fun s a => leeTodo cfg s a = true) inicial s) : NothingSkipped s := by
  have hat : Atendido s := h.invariant_with (fun _ => reachable_numerado) atendido_inicial
    fun _ _ _ hn hc hs hi => atendido_paso hn hc hs hi
  exact hat.below

/-- Two messages, one turn that answers both, and a third one that came meanwhile. -/
def runTwoMessages : List Accion :=
  [.llega cliente .received, .prepara 0 "hola", .inserta 0, .confirma 0,
    .llega cliente .received, .prepara 0 "ponme 6 del kajal", .inserta 0, .confirma 0, .avanza 900,
    .tick [cliente], .lee true, .llega cliente .received, .prepara 0 "y un serum", .inserta 0,
    .confirma 0, .criba true, .comprueba "apuntado" false, .escribe]

theorem nothingSkipped_of_runTwoMessages :
    ∃ s, replay (paso (.porDefecto .latin)) (leeTodo (.porDefecto .latin)) inicial runTwoMessages = some s ∧
      (s.sesiones cliente).lastAnsweredId = 2 ∧ s.filas.length = 4 ∧ NothingSkipped s := by
  refine ⟨(replay (paso (.porDefecto .latin)) (leeTodo (.porDefecto .latin)) inicial
    runTwoMessages).get (by decide), by simp, by decide, by decide, ?_⟩
  exact pending_nothingSkipped (reachable_get runTwoMessages (by decide))

/-- Sixty-one messages before the turn: the window of sixty leaves the first one out. -/
def runBurst : List Accion :=
  ((List.range 61).flatMap fun i => [.llega cliente .received, .prepara 0 (Texto.ofNat i),
    .inserta 0, .confirma 0]) ++
  [.avanza 900, .tick [cliente], .lee true, .criba true, .comprueba "apuntado" false, .escribe]

theorem burst_skips_the_first :
    ¬ ∀ s, Reachable (paso (.porDefecto .latin)) Libre inicial s → NothingSkipped s := by
  intro h
  have hrun : ((run (paso (.porDefecto .latin)) inicial runBurst).map fun s =>
      s.filas.filter fun m => m.clientMsg && m.id ≤ (s.sesiones m.clave).lastAnsweredId &&
        !Covered s m.clave m.id) =
      some [{ id := 1, clave := cliente, message := "0", direction := .received, isBot := false
              timestamp := 0, llegada := 0 }] := by
    decide +kernel
  obtain ⟨s, hs, hskipped⟩ := Option.map_eq_some_iff.mp hrun
  obtain ⟨hm, hleft⟩ := List.mem_filter.mp (hskipped ▸ List.mem_singleton_self _)
  simp only [Bool.and_eq_true, Bool.not_eq_true', decide_eq_true_eq, decide_eq_false_iff_not] at hleft
  exact hleft.2 (h s (Reachable.refl.run (fun _ _ _ => trivial) hs) _ hm hleft.1.1 hleft.1.2)

end Chatlink.Conversation
