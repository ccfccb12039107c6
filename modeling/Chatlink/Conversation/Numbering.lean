import Chatlink.Conversation.Steps

/-!
# The ids of the messages

Every row and every inserted message has an id of its own below the next one of its
table, whatever the interleaving.
-/
namespace Chatlink.Conversation

open Lists Transition

variable {cfg : Config} {s s' : Sistema}

def Fila.numero (f : Fila) : Canal × ℕ := (f.clave.canal, f.id)

def Tarea.numero? (t : Tarea) : Option (Canal × ℕ) := t.id?.map fun id => (t.clave.canal, id)

/-- The ids taken so far: of stored rows, and of messages inserted and not committed. -/
def Sistema.numeros (s : Sistema) : List (Canal × ℕ) :=
  s.filas.map Fila.numero ++ s.tareas.filterMap Tarea.numero?

structure Numerado (s : Sistema) : Prop where
  nodup : s.numeros.Nodup
  lt : ∀ x ∈ s.numeros, x.2 < s.siguiente x.1

namespace Numerado

theorem of_sublist (h : Numerado s) (hs : s'.numeros.Sublist s.numeros)
    (hn : s'.siguiente = s.siguiente) : Numerado s' :=
  ⟨h.nodup.sublist hs, fun x hx => hn ▸ h.lt x (hs.subset hx)⟩

/-- The next id of a table is given out. -/
theorem cons (h : Numerado s) (c : Canal) (hs : s'.numeros.Perm ((c, s.siguiente c) :: s.numeros))
    (hn : s'.siguiente = Function.update s.siguiente c (s.siguiente c + 1)) : Numerado s' := by
  have hfresh : (c, s.siguiente c) ∉ s.numeros := fun hm => lt_irrefl _ (h.lt _ hm)
  refine ⟨hs.nodup_iff.mpr (List.nodup_cons.mpr ⟨hfresh, h.nodup⟩), fun x hx => ?_⟩
  rw [hn]
  rcases List.mem_cons.mp (hs.mem_iff.mp hx) with rfl | hx
  · simp
  · exact lt_of_lt_of_le (h.lt x hx) (le_update_succ ..)

theorem fila_lt (h : Numerado s) {f : Fila} (hf : f ∈ s.filas) : f.id < s.siguiente f.clave.canal :=
  h.lt f.numero (List.mem_append_left _ (List.mem_map_of_mem hf))

theorem tarea_lt (h : Numerado s) {t : Tarea} (ht : t ∈ s.tareas) {id : ℕ} (hid : t.id? = some id) :
    id < s.siguiente t.clave.canal := by
  refine h.lt (t.clave.canal, id) (List.mem_append_right _ (List.mem_filterMap.mpr ⟨t, ht, ?_⟩))
  rw [Tarea.numero?, hid]
  rfl

/-- An id names one row of its table. -/
theorem fila_eq (h : Numerado s) {f g : Fila} (hf : f ∈ s.filas) (hg : g ∈ s.filas)
    (hk : f.clave = g.clave) (hid : f.id = g.id) : f = g :=
  List.inj_on_of_nodup_map (List.nodup_append.mp h.nodup).1 hf hg (by simp [Fila.numero, hk, hid])

end Numerado

theorem numerado_inicial : Numerado inicial := by
  constructor <;> simp [inicial, Sistema.numeros]

theorem numerado_paso {a : Accion} (hp : paso cfg s a = some s') (h : Numerado s) : Numerado s' := by
  cases paso_cases hp with
  | reloj d => exact ⟨h.nodup, h.lt⟩
  | llega k d =>
    refine h.of_sublist ?_ rfl
    simp [Sistema.numeros, Tarea.numero?, Tarea.id?]
  | quita i =>
    refine h.of_sublist ?_ rfl
    exact (List.Sublist.refl _).append ((List.eraseIdx_sublist _ _).filterMap _)
  | prepara message ht hf =>
    refine h.of_sublist ?_ rfl
    refine (List.Sublist.refl _).append ?_
    rw [filterMap_set_of_eq ht]
    simp [Tarea.numero?, Tarea.id?, hf]
  | @inserta i t message ts ht hf =>
    refine h.cons t.clave.canal ?_ rfl
    have hp := filterMap_set_perm (f := Tarea.numero?)
      (b := { t with fase := .insertada message ts (s.siguiente t.clave.canal) })
      (x := (t.clave.canal, s.siguiente t.clave.canal)) ht
      (by simp [Tarea.numero?, Tarea.id?, hf]) (by simp [Tarea.numero?, Tarea.id?])
    exact (hp.append_left _).trans List.perm_middle
  | @confirma i t message ts id ht hf =>
    -- the id moves from the task to its row
    have hp := filterMap_eraseIdx_perm (f := Tarea.numero?) (x := (t.clave.canal, id)) ht
      (by simp [Tarea.numero?, Tarea.id?, hf])
    have hperm : (Sistema.numeros { s with
        tareas := s.tareas.eraseIdx i
        filas := s.filas ++ [t.fila message ts id] }).Perm s.numeros := by
      simp only [Sistema.numeros, List.map_append, List.append_assoc]
      exact (hp.symm.append_left _)
    exact ⟨hperm.nodup_iff.mpr h.nodup, fun x hx => h.lt x (hperm.mem_iff.mp hx)⟩
  | avanza ha => exact ⟨h.nodup, h.lt⟩
  | done x fin hb => exact ⟨h.nodup, h.lt⟩
  | @responde q l reply optOut ks x hb hr =>
    refine h.cons l.clave.canal ?_ rfl
    simp only [Sistema.numeros, Sistema.done, List.map_append, List.append_assoc]
    exact List.perm_middle
  | anota ok hb =>
    refine h.of_sublist (List.Sublist.append ?_ (List.Sublist.refl _)) rfl
    rw [List.map_map, List.map_congr_left fun f _ => ?_]
    simp only [Function.comp_apply]
    split <;> rfl
  | reinicia =>
    refine h.of_sublist ?_ rfl
    exact (List.Sublist.refl _).append (List.nil_sublist _)

theorem reachable_numerado {C : Sistema → Accion → Prop}
    (h : Reachable (paso cfg) C inicial s) : Numerado s :=
  h.invariant numerado_inicial fun _ _ _ _ hs hi => numerado_paso hs hi

end Chatlink.Conversation
