import Chatlink.Agent.ItemSteps

/-!
# What every edit of the open items keeps

An operation removes items, opens conflicts, proposals, review lines and new products, and changes
the quantity, the options and the rejections of a product. A property of items that holds of what
can be opened and survives such a change holds of all open items throughout a turn.
-/
namespace Chatlink.Agent

open Lists

/-- The property holds of what an operation opens, and of what it makes of a product. -/
structure Editable (Q : Item → Prop) : Prop where
  revisar : ∀ texto qty, Q (.revisar texto qty)
  conflicto : ∀ c, Q (.conflicto c)
  siNo : ∀ v, Q (.siNo v)
  abre : ∀ texto qty, Q (.producto { texto := texto, qty := qty, nuevo := true })
  cambia : ∀ (p : Producto) qty opciones rechazados, Q (.producto p) →
    Q (.producto { p with qty := qty, opciones := opciones, rechazados := rechazados })

/-- Every item has the property. -/
def Todos (Q : Item → Prop) (items : List Item) : Prop := ∀ i ∈ items, Q i

namespace Todos

variable {Q : Item → Prop} {items : List Item}

theorem of_subset {items' : List Item} (h : Todos Q items) (hs : items' ⊆ items) : Todos Q items' :=
  fun i hi => h i (hs hi)

theorem concat (h : Todos Q items) {i : Item} (hi : Q i) : Todos Q (items ++ [i]) := by
  intro j hj
  rcases List.mem_append.mp hj with hj | hj
  · exact h j hj
  · exact List.mem_singleton.mp hj ▸ hi

theorem erase (h : Todos Q items) (i : Item) : Todos Q (items.erase i) :=
  h.of_subset List.erase_subset

theorem cambia (h : Todos Q items) (texto : Texto) {f : Producto → Producto}
    (hf : ∀ p, Q (.producto p) → Q (.producto (f p))) : Todos Q (cambiaProducto texto f items) := by
  intro i hi
  rcases mem_cambiaProducto hi with hi | ⟨p, hp, -, rfl⟩
  · exact h i hi
  · exact hf p (h _ hp)

theorem revisa (hQ : Editable Q) (h : Todos Q items) (ps : List Producto) :
    Todos Q (Agent.revisa ps items) := by
  intro i hi
  rcases mem_revisa hi with hi | ⟨p, -, rfl⟩
  · exact h i hi
  · exact hQ.revisar _ _

end Todos

section Step

variable {Q : Item → Prop} (hQ : Editable Q) {t : Trabajo} (h : Todos Q t.e.openItems)
include hQ h

theorem add_todos (code name brand : Texto) (qty : Option ℤ) (fuente aliasTexto : Texto) :
    Todos Q (t.add code name brand qty fuente aliasTexto).e.openItems := by
  rcases t.add_cases code name brand qty fuente aliasTexto with
    ⟨ln, -, -, heq⟩ | ⟨ln, q, -, -, -, heq⟩ | ⟨-, heq⟩
  all_goals rw [heq]
  · exact h
  · exact (h.of_subset (List.filter_subset_self _)).concat (hQ.conflicto _)
  · exact h

theorem addLineas_todos (fuente : Texto) (lineas : List Linea) :
    Todos Q (lineas.foldl (Trabajo.addLinea fuente) t).e.openItems :=
  foldl_keeps (P := fun u : Trabajo => Todos Q u.e.openItems) lineas
    (fun _ _ _ hu => add_todos hQ hu _ _ _ _ _ _) h

theorem nuevaSiNo_todos (v : Propuesta) (titulo : Titulo) :
    Todos Q (t.nuevaSiNo v titulo).1.e.openItems := by
  rcases t.nuevaSiNo_cases v titulo with ⟨w, -, heq⟩ | ⟨-, heq⟩
  all_goals rw [heq]
  · exact h
  · exact h.concat (hQ.siNo v)

theorem setQty_todos (code name : Texto) (modo : Modo) (valor : Option ℤ) :
    Todos Q (t.setQty code name modo valor).e.openItems := by
  rcases t.setQty_cases code name modo valor with
    ⟨-, heq⟩ | ⟨ln, -, -, heq⟩ | ⟨ln, w, -, -, heq⟩ | ⟨ln, -, -, heq⟩ | ⟨ln, q, -, heq⟩
  all_goals rw [heq]
  · exact h
  · exact h
  · exact h
  · exact h.concat (hQ.siNo _)
  · exact h

theorem ejecuta_todos (v : Propuesta) : Todos Q (ejecuta t v).e.openItems := by
  unfold ejecuta
  cases v.tipo with
  | cierre =>
    dsimp only
    exact cierre_openItems _ t ▸ h.revisa hQ _
  | baja =>
    dsimp only
    split
    · exact h
    · exact h
  | media => exact addLineas_todos hQ h "media" v.items
  | repetir => exact addLineas_todos hQ h "repetir" v.items

/-- The step lemma. -/
theorem paso_todos (fm : Bool) (op : Op) : Todos Q (paso fm t op).e.openItems := by
  cases op with
  | add code name brand qty fuente =>
    cases fm with
    | true => exact h
    | false => exact add_todos hQ h _ _ _ _ _ _
  | modificar code name modo valor b vn =>
    simp only [paso]
    split
    · split
      · exact h
      · split
        · exact h
        · exact h
    · exact setQty_todos hQ h code name modo valor
  | opciones texto qty ops ind =>
    have hcambia {items : List Item} (hi : Todos Q items) : Todos Q (cambiaProducto texto (fun p =>
        { p with qty := qty.orElse fun _ => p.qty
                 opciones := ops.filter fun o => !p.rechazados.contains o.code }) items) :=
      hi.cambia texto fun p hp => hQ.cambia p _ _ p.rechazados hp
    simp only [paso]
    split
    · split
      · exact hcambia h
      · exact hcambia (h.concat (hQ.abre texto qty))
    · split
      · exact hcambia h
      · exact hcambia (h.concat (hQ.abre texto qty))
  | sinCandidatos texto qty =>
    simp only [paso]
    split
    · exact h
    · exact h.concat (hQ.abre texto qty)
  | codigoNoExiste code => exact h
  | rechazo objetivo =>
    simp only [paso]
    split
    · exact h
    · exact h.cambia _ fun p hp => hQ.cambia p p.qty _ _ hp
  | elige item code name brand fuente =>
    simp only [paso]
    split
    · next p hp =>
      exact add_todos hQ (t := t.quita (.producto p)) (h.erase _) _ _ _ _ _ _
    · exact add_todos hQ h _ _ _ _ _ _
  | eligeQty code valor =>
    simp only [paso]
    split
    · exact h
    · next c hc =>
      split
      · split
        · exact h.erase (.conflicto c)
        · exact h.erase (.conflicto c)
      · exact h
  | referenciaAmbigua texto candidatas => exact h
  | cantidadGlobal valor =>
    simp only [paso]
    split
    · split
      · exact h
      · exact h
    · exact h
  | repetirUltimo qo =>
    simp only [paso]
    split
    · exact h
    · exact nuevaSiNo_todos hQ h _ _
  | cerrar =>
    simp only [paso]
    split
    · exact h
    · exact nuevaSiNo_todos hQ h _ _
  | confirmar =>
    simp only [paso]
    split
    · exact h
    · next v hv => exact ejecuta_todos hQ (t := t.quita (.siNo v)) (h.erase _) v
  | negar =>
    simp only [paso]
    split
    · exact h
    · next v hv => exact h.erase (.siNo v)
  | otro subtipo =>
    cases subtipo with
    | noSabe =>
      simp only [paso, pasoOtro]
      split
      · exact h
      · exact mandaRevisar_openItems _ t ▸ h.revisa hQ _
    | _ => exact h

end Step

variable {Q : Item → Prop} {fm : Bool} {e : Estado} {g : Option ℤ} {ops : List Op}

/-- Throughout the operations of a turn. -/
theorem tras_todos (hQ : Editable Q) (h : Todos Q e.openItems) :
    Todos Q (tras fm e g ops).e.openItems :=
  foldl_keeps (P := fun u : Trabajo => Todos Q u.e.openItems) ops
    (fun _ op _ hu => paso_todos hQ hu fm op) h

/-- And up to rule 7, if the property does not depend on the quantity. -/
theorem regla11_todos (hQ : Editable Q) {t : Trabajo} (h : Todos Q t.e.openItems) :
    Todos Q (regla11 (regla3 (reglaMedia t))).e.openItems := by
  have hmedia : Todos Q (reglaMedia t).e.openItems := by
    rcases reglaMedia_openItems t with heq | ⟨v, heq⟩
    · exact heq ▸ h
    · exact heq ▸ h.concat (hQ.siNo v)
  have htres : Todos Q (regla3 (reglaMedia t)).e.openItems := by
    intro i hi
    rcases (regla3_items _).1 i hi with hi | ⟨c, rfl⟩
    · exact hmedia i hi
    · exact hQ.conflicto c
  rw [regla11_openItems]
  split
  · exact htres
  · intro i hi
    obtain ⟨j, hj, rfl⟩ := List.mem_map.mp hi
    cases j with
    | producto p => exact hQ.cambia p _ p.opciones p.rechazados (htres _ hj)
    | revisar texto qty => exact htres _ hj
    | conflicto c => exact htres _ hj
    | siNo v => exact htres _ hj

end Chatlink.Agent
