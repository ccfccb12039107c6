import Chatlink.Agent.Facts
import Chatlink.Agent.OpenItems
import Chatlink.Agent.Render

/-!
# The question budget

A reply asks at most two questions about products and announces how many wait. The renderer counts
facts, not products: two facts about one product are two questions, a fact about a product that was
settled later in the turn is a question still, and the confirmation of a close drops the whole block.
-/
namespace Chatlink.Agent

open Lists

variable {U : Unicode} {c : Carta} {e : Estado} {hs : List Hecho}

/-! ## What a reply asks -/

/-- The product that a question is about, in the client's words. -/
def Hecho.producto? : Hecho → Option Texto
  | .preguntaOpciones texto _ _ _ => some texto
  | .sinCandidatos texto => some texto
  | .rechazoRegistrado texto => some texto
  | .recordatorioPendiente texto => some texto
  | .referenciaAmbigua texto _ => some texto
  | _ => none

/-- A reference that the client has to make clear. -/
def Hecho.referencia? : Hecho → Option Texto
  | .referenciaAmbigua texto _ => some texto
  | _ => none

/-- The options a question offers. -/
def Hecho.opciones : Hecho → List Opcion
  | .preguntaOpciones _ _ opciones _ => opciones
  | _ => []

/-- A question about something else than a product that is open in the state. -/
def Hecho.AbiertaEn (e : Estado) : Hecho → Prop
  | .conflictoCantidad code _ _ => ∃ c ∈ e.conflictos, c.code = code
  | .preguntaBaja code _ => ∃ v ∈ e.siNos, v.tipo = .baja ∧ v.code = code
  | .preguntaEliminarORestar .. => True
  | .propuesta tipo _ _ => tipo ≠ .baja ∧ ∃ v ∈ e.siNos, v.tipo = tipo
  | _ => False

def Bloque.pregunta? : Bloque → Option Hecho
  | .pregunta h => some h
  | _ => none

def Bloque.quedan? : Bloque → Option ℕ
  | .quedan n => some n
  | _ => none

/-- The questions of a reply. -/
def preguntasDe (bs : List Bloque) : List Hecho := bs.filterMap Bloque.pregunta?

/-- The products that a reply asks about. -/
def preguntados (bs : List Bloque) : List Texto := (preguntasDe bs).filterMap Hecho.producto?

/-- The number in "Me quedan N más"; a reply without it announces none. -/
def anunciados (bs : List Bloque) : ℕ := (bs.filterMap Bloque.quedan?).sum

/-- The products that need a question: those open in the state, and the references to make clear. -/
def porConcretar (hs : List Hecho) (e : Estado) : List Texto :=
  e.productosAbiertos.map Producto.texto ++ hs.filterMap Hecho.referencia?

/-- The reply keeps to the budget, and what it asks and announces is what is open. -/
structure PresupuestoExacto (hs : List Hecho) (e : Estado) (bs : List Bloque) : Prop where
  alMenos : (preguntados bs).length ≤ questionBudget
  distintos : (preguntados bs).Nodup
  opciones : ∀ h ∈ preguntasDe bs, h.opciones.length ≤ maxOpciones
  cuenta : (preguntados bs).length + anunciados bs = (porConcretar hs e).dedup.length
  ninguna : ∀ h ∈ hs, h.AbiertaEn e → h ∈ preguntasDe bs

/-! ## The loop over the facts -/

theorem preguntaProducto_iff (h : Hecho) : h.preguntaProducto = h.producto?.isSome := by
  cases h <;> rfl

/-- The facts about products, in order. -/
def deProducto (hs : List Hecho) : List Hecho := hs.filter Hecho.preguntaProducto

/-- What the loop has done with the facts so far. -/
structure Repartido (hs : List Hecho) (p : Partes) : Prop where
  asked : p.asked = min questionBudget (deProducto hs).length
  held : p.held = (deProducto hs).length - questionBudget
  producto : p.preguntas.filter Hecho.preguntaProducto = (deProducto hs).take questionBudget
  otras : p.preguntas.filter Hecho.otraPregunta = hs.filter Hecho.otraPregunta
  solo : ∀ h ∈ p.preguntas, h.preguntaProducto ∨ h.otraPregunta
  cierre : p.cierre.isSome ↔ ∃ cart rs, Hecho.cerrado cart rs ∈ hs

/-- The locals that only the questions and the close change. -/
structure MismasPreguntas (p q : Partes) : Prop where
  preguntas : q.preguntas = p.preguntas
  asked : q.asked = p.asked
  held : q.held = p.held

theorem anotaAviso_frame (e : Estado) (p : Partes) (h : Hecho) :
    MismasPreguntas p (anotaAviso U c e p h) := by
  unfold anotaAviso
  split
  all_goals first
    | exact ⟨rfl, rfl, rfl⟩
    | (split <;> exact ⟨rfl, rfl, rfl⟩)

theorem anotaAviso_cierre (e : Estado) (p : Partes) (h : Hecho) :
    (anotaAviso U c e p h).cierre.isSome ↔ p.cierre.isSome ∨ ∃ cart rs, h = .cerrado cart rs := by
  by_cases hc : ∃ cart rs, h = .cerrado cart rs
  · obtain ⟨cart, rs, rfl⟩ := hc
    exact iff_of_true rfl (Or.inr ⟨cart, rs, rfl⟩)
  · have heq : (anotaAviso U c e p h).cierre = p.cierre := by
      unfold anotaAviso
      split
      all_goals first
        | rfl
        | (split <;> rfl)
        | exact absurd ⟨_, _, rfl⟩ hc
    rw [heq]
    exact ⟨Or.inl, fun h => h.resolve_right hc⟩

theorem otraPregunta_of_producto {h : Hecho} (hp : h.preguntaProducto) : h.otraPregunta = false := by
  cases h <;> first | rfl | cases hp

theorem not_cerrado_of_pregunta {h : Hecho} (hp : h.preguntaProducto ∨ h.otraPregunta) :
    ¬ ∃ cart rs, h = .cerrado cart rs := by
  rintro ⟨cart, rs, rfl⟩
  rcases hp with hp | hp <;> cases hp

theorem mem_cerrado_concat {h : Hecho} : (∃ cart rs, Hecho.cerrado cart rs ∈ hs ++ [h]) ↔
    (∃ cart rs, Hecho.cerrado cart rs ∈ hs) ∨ ∃ cart rs, h = .cerrado cart rs := by
  simp only [List.mem_append, List.mem_singleton, exists_or, eq_comm (a := h)]

/-- A question about a product is asked while the budget lasts, and counted after. -/
theorem Repartido.producto_concat {p : Partes} (ih : Repartido hs p) {h : Hecho}
    (hp : h.preguntaProducto) : Repartido (hs ++ [h])
      (if questionBudget ≤ p.asked then { p with held := p.held + 1 }
        else { p with asked := p.asked + 1 }.pregunta h) := by
  have hdeprod : deProducto (hs ++ [h]) = deProducto hs ++ [h] := by
    simp [deProducto, List.filter_append, hp]
  have hlen : (deProducto (hs ++ [h])).length = (deProducto hs).length + 1 := by
    rw [hdeprod, List.length_append]
    rfl
  have hotra : (hs ++ [h]).filter Hecho.otraPregunta = hs.filter Hecho.otraPregunta := by
    simp [List.filter_append, otraPregunta_of_producto hp]
  have hcierre := (@mem_cerrado_concat hs h).trans
    (or_iff_left (not_cerrado_of_pregunta (Or.inl hp)))
  have hasked := ih.asked
  have hheld := ih.held
  split
  · next hfull =>
    have hle : questionBudget ≤ (deProducto hs).length := by omega
    refine ⟨?_, ?_, ?_, ih.otras.trans hotra.symm, ih.solo, ih.cierre.trans hcierre.symm⟩
    · rw [hlen]
      dsimp only
      omega
    · rw [hlen]
      dsimp only
      omega
    · rw [hdeprod, List.take_append_of_le_length hle]
      exact ih.producto
  · next hroom =>
    have hlt : (deProducto hs).length + 1 ≤ questionBudget := by omega
    refine ⟨?_, ?_, ?_, ?_, ?_, ih.cierre.trans hcierre.symm⟩
    · rw [hlen]
      dsimp only [Partes.pregunta]
      omega
    · rw [hlen]
      dsimp only [Partes.pregunta]
      omega
    · have htake : (deProducto hs).take questionBudget = deProducto hs :=
        List.take_of_length_le (by omega)
      rw [hdeprod, List.take_of_length_le (by simpa using hlt)]
      simp only [Partes.pregunta, List.filter_append, ih.producto, htake]
      simp [hp]
    · rw [hotra, ← ih.otras]
      simp [Partes.pregunta, List.filter_append, otraPregunta_of_producto hp]
    · intro k hk
      rcases List.mem_append.mp hk with hk | hk
      · exact ih.solo k hk
      · exact Or.inl (List.mem_singleton.mp hk ▸ hp)

/-- Another question is always asked. -/
theorem Repartido.otra_concat {p : Partes} (ih : Repartido hs p) {h : Hecho}
    (hp : h.preguntaProducto = false) (ho : h.otraPregunta) : Repartido (hs ++ [h]) (p.pregunta h) := by
  have hdeprod : deProducto (hs ++ [h]) = deProducto hs := by
    simp [deProducto, List.filter_append, hp]
  have hcierre := (@mem_cerrado_concat hs h).trans
    (or_iff_left (not_cerrado_of_pregunta (Or.inr ho)))
  refine ⟨?_, ?_, ?_, ?_, ?_, ih.cierre.trans hcierre.symm⟩
  · rw [hdeprod]
    exact ih.asked
  · rw [hdeprod]
    exact ih.held
  · rw [hdeprod, ← ih.producto]
    simp [Partes.pregunta, List.filter_append, hp]
  · rw [List.filter_append, ← ih.otras]
    simp [Partes.pregunta, List.filter_append, ho]
  · intro k hk
    rcases List.mem_append.mp hk with hk | hk
    · exact ih.solo k hk
    · exact Or.inr (List.mem_singleton.mp hk ▸ ho)

theorem repartido_partesDe (hs : List Hecho) : Repartido hs (partesDe U hs e c) := by
  induction hs using List.reverseRecOn with
  | nil => exact ⟨rfl, rfl, rfl, rfl, by simp [partesDe], by simp [partesDe]⟩
  | append_singleton hs h ih =>
    have hstep : partesDe U (hs ++ [h]) e c = anotaHecho U c e (partesDe U hs e c) h := by
      simp [partesDe]
    rw [hstep]
    unfold anotaHecho
    split
    · next hp => exact ih.producto_concat hp
    · next hp =>
      have hp : h.preguntaProducto = false := by simpa using hp
      split
      · next ho => exact ih.otra_concat hp ho
      · next ho =>
        have hframe := anotaAviso_frame (U := U) (c := c) e (partesDe U hs e c) h
        have hdeprod : deProducto (hs ++ [h]) = deProducto hs := by
          simp [deProducto, List.filter_append, hp]
        refine ⟨?_, ?_, ?_, ?_, ?_, ?_⟩
        · rw [hframe.asked, hdeprod]
          exact ih.asked
        · rw [hframe.held, hdeprod]
          exact ih.held
        · rw [hframe.preguntas, hdeprod]
          exact ih.producto
        · rw [hframe.preguntas, ih.otras, List.filter_append]
          simp [ho]
        · rw [hframe.preguntas]
          exact ih.solo
        · rw [anotaAviso_cierre, mem_cerrado_concat, ih.cierre]

/-! ## The blocks -/

theorem preguntasDe_map_texto (ts : List Texto) : preguntasDe (ts.map .texto) = [] := by
  induction ts with
  | nil => rfl
  | cons t ts ih => exact ih

theorem preguntasDe_append (bs bs' : List Bloque) :
    preguntasDe (bs ++ bs') = preguntasDe bs ++ preguntasDe bs' := List.filterMap_append

theorem anunciados_append (bs bs' : List Bloque) :
    anunciados (bs ++ bs') = anunciados bs + anunciados bs' := by
  rw [anunciados, List.filterMap_append, List.sum_append]
  rfl

theorem anunciados_map_texto (ts : List Texto) : anunciados (ts.map .texto) = 0 := by
  induction ts with
  | nil => rfl
  | cons t ts ih => exact ih

theorem preguntasDe_bloques (p : Partes) :
    preguntasDe p.bloquesPreguntas = p.preguntas ∧ anunciados p.bloquesPreguntas = p.held := by
  have hmap : preguntasDe (p.preguntas.map .pregunta) = p.preguntas ∧
      anunciados (p.preguntas.map .pregunta) = 0 := by
    induction p.preguntas with
    | nil => exact ⟨rfl, rfl⟩
    | cons h hs ih => exact ⟨congrArg (h :: ·) ih.1, ih.2⟩
  unfold Partes.bloquesPreguntas
  rw [preguntasDe_append, anunciados_append, hmap.1, hmap.2]
  split
  · next h => simp [preguntasDe, anunciados, h]
  · simp [preguntasDe, anunciados, Bloque.pregunta?, Bloque.quedan?]

/-- A close drops the questions and the announcement. -/
theorem preguntasDe_bloquesDe {bs : List Bloque} (h : bloquesDe U hs e c = some bs) :
    preguntasDe bs = (if (partesDe U hs e c).cierre.isSome then [] else (partesDe U hs e c).preguntas) ∧
      anunciados bs = if (partesDe U hs e c).cierre.isSome then 0 else (partesDe U hs e c).held := by
  obtain ⟨saludo, -, rfl⟩ := Option.map_eq_some_iff.mp h
  generalize partesDe U hs e c = p
  have hsaludo : preguntasDe (if saludo.isEmpty then [] else [.texto saludo]) = [] ∧
      anunciados (if saludo.isEmpty then [] else [.texto saludo]) = 0 := by
    split <;> exact ⟨rfl, rfl⟩
  have hcola : preguntasDe (p.derivacion.toList.map .texto ++
        if p.conCortesias then p.cortesias.map .texto else []) = [] ∧
      anunciados (p.derivacion.toList.map .texto ++
        if p.conCortesias then p.cortesias.map .texto else []) = 0 := by
    rw [preguntasDe_append, anunciados_append, preguntasDe_map_texto, anunciados_map_texto]
    split
    · rw [preguntasDe_map_texto, anunciados_map_texto]
      exact ⟨rfl, rfl⟩
    · exact ⟨rfl, rfl⟩
  rw [preguntasDe_append, anunciados_append, hsaludo.1, hsaludo.2, Partes.cuerpo,
    preguntasDe_append, anunciados_append, hcola.1, hcola.2]
  cases p.cierre with
  | some cierre =>
    simp only [preguntasDe_append, anunciados_append, preguntasDe_map_texto, anunciados_map_texto]
    exact ⟨rfl, rfl⟩
  | none =>
    simp only [preguntasDe_append, anunciados_append, preguntasDe_map_texto, anunciados_map_texto,
      (preguntasDe_bloques p).1, (preguntasDe_bloques p).2]
    simp

/-! ## Every open product has its fact -/

theorem trata_producto? {h : Hecho} {texto : Texto} (ht : h.trata texto) : h.producto? = some texto := by
  cases h <;> simp_all [Hecho.trata, Hecho.producto?]

/-- Rule 7 on a product with attempts left: it was treated in the turn, or is asked now. -/
theorem regla7Item_pregunta {hubo : Bool} {ya hs : List Hecho} {p : Producto} (hya : ya ⊆ hs)
    (hn : intentosTras hubo p < maxIntentosProducto) :
    ∃ h ∈ (regla7Item hubo ya hs (.producto p)).2, h.producto? = some p.texto := by
  simp only [regla7Item, if_neg (Nat.not_le.mpr hn)]
  split
  · next hany =>
    obtain ⟨h, hh, ht⟩ := List.any_eq_true.mp hany
    exact ⟨h, hya hh, trata_producto? ht⟩
  · split
    · exact ⟨.recordatorioPendiente p.texto, by simp, rfl⟩
    · exact ⟨.preguntaOpciones p.texto p.qty p.opciones false, by simp, rfl⟩

theorem regla7Items_subset (hubo : Bool) (ya : List Hecho) (items : List Item) (hs : List Hecho) :
    hs ⊆ (regla7Items hubo ya hs items).2 := by
  obtain ⟨ks, hk, -⟩ := regla7Items_hechos hubo ya items hs
  rw [hk]
  exact List.subset_append_left hs ks

theorem regla7Items_pregunta {hubo : Bool} {ya : List Hecho} {p : Producto}
    (hn : intentosTras hubo p < maxIntentosProducto) (items : List Item) (hs : List Hecho)
    (hya : ya ⊆ hs) (hp : Item.producto p ∈ items) :
    ∃ h ∈ (regla7Items hubo ya hs items).2, h.producto? = some p.texto := by
  induction items generalizing hs with
  | nil => cases hp
  | cons i items ih =>
    have hgrow : ya ⊆ (regla7Item hubo ya hs i).2 := by
      obtain ⟨ks, hk, -⟩ := regla7Item_hechos hubo ya hs i
      rw [hk]
      exact List.Subset.trans hya (List.subset_append_left hs ks)
    rcases List.mem_cons.mp hp with rfl | hp
    · obtain ⟨h, hh, ht⟩ := regla7Item_pregunta hya hn
      exact ⟨h, regla7Items_subset hubo ya items _ hh, ht⟩
    · exact ih _ hgrow hp

/-- No product with the mark of review is left among the items. -/
theorem agotados_sin_revisar {items : List Item} {p : Producto}
    (h : Item.producto p ∈ agotados items) : p.revisar = false ∧ Item.producto p ∈ items := by
  have hmem : Item.producto p ∈ items := by
    rcases mem_revisa h with h | ⟨q, -, hq⟩
    · exact h
    · cases hq
  refine ⟨?_, hmem⟩
  have hprods : p ∈ (agotados items).filterMap Item.producto? :=
    List.mem_filterMap.mpr ⟨_, h, rfl⟩
  have hdiff : (agotados items).filterMap Item.producto? =
      (items.filterMap Item.producto?).diff
        ((items.filterMap Item.producto?).filter Producto.revisar) := by
    rw [List.diff_eq_foldl]
    exact revisa_productos _ items
  rw [hdiff] at hprods
  by_contra hrev
  -- the marked product is taken out as often as it is there
  have hcount := List.count_pos_iff.mpr hprods
  rw [List.count_diff, List.count_filter (by simpa using hrev)] at hcount
  omega

/-- A product that rule 7 leaves open has a fact about it. -/
theorem limpia_regla7_pregunta {t : Trabajo} {p : Producto}
    (hp : p ∈ (limpia (regla7 t)).e.productosAbiertos) :
    ∃ h ∈ (regla7 t).hechos, h.producto? = some p.texto := by
  obtain ⟨q, hq, hqp⟩ := List.mem_map.mp (mem_productosAbiertos.mp hp)
  obtain ⟨q, rfl, htexto⟩ : ∃ q', q = .producto q' ∧ q'.texto = p.texto := by
    cases q with
    | producto q =>
      obtain rfl := Item.producto.inj hqp
      exact ⟨q, rfl, rfl⟩
    | revisar texto qty => cases hqp
    | conflicto c => cases hqp
    | siNo v => cases hqp
  obtain ⟨hrev, hmem⟩ := agotados_sin_revisar hq
  have hfst := regla7Items_fst (t.hechos.any Hecho.progreso) t.hechos t.e.openItems t.hechos
  have hitems : (regla7 t).e.openItems =
      t.e.openItems.map (Item.contado (t.hechos.any Hecho.progreso)) := hfst
  rw [hitems] at hmem
  obtain ⟨i, hi, hiq⟩ := List.mem_map.mp hmem
  cases i with
  | producto r =>
    obtain rfl := Item.producto.inj hiq
    have hn : intentosTras (t.hechos.any Hecho.progreso) r < maxIntentosProducto := by
      simp only [Bool.or_eq_false_iff, decide_eq_false_iff_not] at hrev
      omega
    rw [← htexto]
    exact regla7Items_pregunta hn t.e.openItems t.hechos (List.Subset.refl _) hi
  | revisar texto qty => cases hiq
  | conflicto c => cases hiq
  | siNo v => cases hiq

theorem producto_preguntado {p : Producto} {ops : List Op} {fm : Bool} {g : Option ℤ}
    (hp : p ∈ (aplicar e ops fm g).estado.productosAbiertos) :
    ∃ h ∈ (aplicar e ops fm g).hechos, h.producto? = some p.texto := by
  obtain ⟨ks, hk, -⟩ := aplicar_hechos fm e g ops
  rw [aplicar_estado] at hp
  obtain ⟨h, hh, ht⟩ := limpia_regla7_pregunta hp
  rw [hk]
  exact ⟨h, List.mem_append_left _ hh, ht⟩

/-! ## The exact facts -/

/-- The products the facts ask about, each as often as a fact asks. -/
def textosDeProducto (hs : List Hecho) : List Texto := hs.filterMap Hecho.producto?

def Confirmado (hs : List Hecho) : Prop := ∃ cart rs, Hecho.cerrado cart rs ∈ hs

/-- The facts of a turn that `render` asks and counts right. After a close there is nothing to ask;
else each product is asked about by one fact, is open (or a reference to make clear), and the
questions that are asked offer no more options than are allowed. -/
structure HechosCabales (hs : List Hecho) (e : Estado) : Prop where
  cerrado : Confirmado hs → porConcretar hs e = [] ∧ ∀ h ∈ hs, ¬ h.AbiertaEn e
  distintos : ¬ Confirmado hs → (textosDeProducto hs).Nodup
  abiertos : ¬ Confirmado hs → ∀ t ∈ textosDeProducto hs, t ∈ porConcretar hs e
  opciones : ¬ Confirmado hs →
    ∀ h ∈ (deProducto hs).take questionBudget, h.opciones.length ≤ maxOpciones

theorem filterMap_deProducto (hs : List Hecho) :
    (deProducto hs).filterMap Hecho.producto? = textosDeProducto hs := by
  rw [deProducto, textosDeProducto, List.filterMap_filter]
  refine List.filterMap_congr fun h _ => ?_
  rw [preguntaProducto_iff]
  cases h.producto? <;> rfl

theorem length_deProducto (hs : List Hecho) : (deProducto hs).length = (textosDeProducto hs).length := by
  rw [textosDeProducto, List.length_filterMap_eq_countP, deProducto, ← List.countP_eq_length_filter]
  exact List.countP_congr fun h _ => by rw [preguntaProducto_iff]

/-- The products a reply asks about are the first of the facts. -/
theorem preguntados_partesDe (hs : List Hecho) :
    (partesDe U hs e c).preguntas.filterMap Hecho.producto? =
      (textosDeProducto hs).take questionBudget := by
  have hrep := repartido_partesDe (U := U) (c := c) (e := e) hs
  have hself : ∀ ks : List Hecho, ks.filterMap Hecho.producto? =
      (ks.filter Hecho.preguntaProducto).filterMap Hecho.producto? :=
    fun ks => (filterMap_deProducto ks).symm
  rw [hself, hrep.producto, ← filterMap_deProducto]
  refine filterMap_take_of_isSome (fun h hh => ?_) questionBudget
  rw [← preguntaProducto_iff]
  exact (List.mem_filter.mp hh).2

theorem mem_porConcretar_of_mem {t : Texto} {ops : List Op} {fm : Bool} {g : Option ℤ}
    (h : t ∈ porConcretar (aplicar e ops fm g).hechos (aplicar e ops fm g).estado) :
    t ∈ textosDeProducto (aplicar e ops fm g).hechos := by
  rcases List.mem_append.mp h with h | h
  · obtain ⟨p, hp, rfl⟩ := List.mem_map.mp h
    obtain ⟨k, hk, hkt⟩ := producto_preguntado hp
    exact List.mem_filterMap.mpr ⟨k, hk, hkt⟩
  · obtain ⟨k, hk, hkt⟩ := List.mem_filterMap.mp h
    refine List.mem_filterMap.mpr ⟨k, hk, ?_⟩
    cases k <;> first | exact hkt | cases hkt

/-- A question that is open in the state is one of the questions of a reply without a close. -/
theorem otraPregunta_of_abiertaEn {h : Hecho} (ha : h.AbiertaEn e) : h.otraPregunta := by
  cases h with
  | propuesta tipo items titulo => simpa [Hecho.otraPregunta] using ha.1
  | conflictoCantidad code name opcionesQty => rfl
  | preguntaBaja code name => rfl
  | preguntaEliminarORestar code name n => rfl
  | _ => cases ha

/-- The budget is exact on the facts of a turn exactly when each product needs one of them. -/
theorem presupuestoExacto_iff {ops : List Op} {fm : Bool} {g : Option ℤ} {bs : List Bloque}
    (h : bloquesDe U (aplicar e ops fm g).hechos (aplicar e ops fm g).estado c = some bs) :
    PresupuestoExacto (aplicar e ops fm g).hechos (aplicar e ops fm g).estado bs ↔
      HechosCabales (aplicar e ops fm g).hechos (aplicar e ops fm g).estado := by
  have hsub : ∀ t ∈ porConcretar (aplicar e ops fm g).hechos (aplicar e ops fm g).estado,
      t ∈ textosDeProducto (aplicar e ops fm g).hechos := fun t => mem_porConcretar_of_mem
  generalize (aplicar e ops fm g).hechos = hs at h hsub ⊢
  generalize (aplicar e ops fm g).estado = r at h hsub ⊢
  have hrep := repartido_partesDe (U := U) (c := c) (e := r) hs
  obtain ⟨hpreg, hanun⟩ := preguntasDe_bloquesDe h
  by_cases hcierre : Confirmado hs
  · rw [if_pos (hrep.cierre.mpr hcierre)] at hpreg hanun
    have hnone : preguntados bs = [] := by rw [preguntados, hpreg]; rfl
    constructor
    · intro hp
      refine ⟨fun _ => ⟨?_, fun k hk ha => ?_⟩, absurd hcierre, absurd hcierre, absurd hcierre⟩
      · have hcuenta := hp.cuenta
        rw [hnone, hanun] at hcuenta
        exact (List.dedup_eq_nil _).mp (List.length_eq_zero_iff.mp hcuenta.symm)
      · have := hp.ninguna k hk ha
        rw [hpreg] at this
        cases this
    · intro hp
      obtain ⟨hnil, hno⟩ := hp.cerrado hcierre
      refine ⟨?_, ?_, ?_, ?_, fun k hk ha => absurd ha (hno k hk)⟩
      · rw [hnone]
        exact Nat.zero_le _
      · rw [hnone]
        exact List.nodup_nil
      · rw [hpreg]
        exact fun k hk => absurd hk List.not_mem_nil
      · rw [hnone, hanun, hnil]
        rfl
  · rw [if_neg fun hc => hcierre (hrep.cierre.mp hc)] at hpreg hanun
    have hasked : preguntados bs = (textosDeProducto hs).take questionBudget := by
      rw [preguntados, hpreg, preguntados_partesDe]
    have hcount : (preguntados bs).length + anunciados bs = (textosDeProducto hs).length := by
      rw [hasked, hanun, hrep.held, length_deProducto, List.length_take]
      omega
    have hexact := length_eq_dedup_iff hsub
    have hopc : (∀ k ∈ preguntasDe bs, k.opciones.length ≤ maxOpciones) ↔
        ∀ k ∈ (deProducto hs).take questionBudget, k.opciones.length ≤ maxOpciones := by
      rw [hpreg, ← hrep.producto]
      constructor
      · exact fun hall k hk => hall k (List.mem_of_mem_filter hk)
      · intro hall k hk
        by_cases hkp : k.preguntaProducto
        · exact hall k (List.mem_filter.mpr ⟨hk, hkp⟩)
        · cases k <;> first | exact Nat.zero_le _ | exact absurd rfl hkp
    constructor
    · intro hp
      obtain ⟨hnd, hin⟩ := hexact.mp (hcount.symm.trans hp.cuenta)
      exact ⟨fun hc => absurd hc hcierre, fun _ => hnd, fun _ => hin, fun _ => hopc.mp hp.opciones⟩
    · intro hp
      have hnd := hp.distintos hcierre
      refine ⟨?_, ?_, hopc.mpr (hp.opciones hcierre), ?_, fun k hk ha => ?_⟩
      · rw [hasked]
        exact List.length_take_le _ _
      · rw [hasked]
        exact hnd.sublist (List.take_sublist _ _)
      · exact hcount.trans (hexact.mpr ⟨hnd, hp.abiertos hcierre⟩)
      · rw [hpreg]
        have hmem : k ∈ hs.filter Hecho.otraPregunta :=
          List.mem_filter.mpr ⟨hk, otraPregunta_of_abiertaEn ha⟩
        rw [← hrep.otras] at hmem
        exact List.mem_of_mem_filter hmem

/-- The letter of a turn in the middle of a conversation. -/
def cartaDeJuan : Carta := ⟨.ninguno, "Marta", "Juan", false⟩

def pideCuatro : List Op :=
  [.sinCandidatos "pinza roja" none, .sinCandidatos "lima azul" none,
    .sinCandidatos "borla grande" none, .sinCandidatos "esponja rosa" none]

/-- Four unknown articles: two are asked about, two are announced. -/
theorem four_articles_are_counted : ∃ bs,
    bloquesDe Unicode.latin (aplicar {} pideCuatro false none).hechos
      (aplicar {} pideCuatro false none).estado cartaDeJuan = some bs ∧
    PresupuestoExacto (aplicar {} pideCuatro false none).hechos
      (aplicar {} pideCuatro false none).estado bs := by
  have hechos : (aplicar {} pideCuatro false none).hechos =
      [.sinCandidatos "pinza roja", .sinCandidatos "lima azul", .sinCandidatos "borla grande",
        .sinCandidatos "esponja rosa"] := by decide
  have hopen : ¬ Confirmado (aplicar {} pideCuatro false none).hechos := by
    rintro ⟨cart, rs, hmem⟩
    rw [hechos] at hmem
    simp at hmem
  refine ⟨_, rfl, (presupuestoExacto_iff (U := Unicode.latin) (c := cartaDeJuan) rfl).mpr
    ⟨fun h => absurd h hopen, fun _ => ?_, fun _ => ?_, fun _ => ?_⟩⟩
  · decide
  · decide
  · decide

def pideDosVeces : List Op :=
  [.opciones "serum noche" none [⟨"SN15", "SERUM NOCHE 15ML", [], [], [], "15ml"⟩] false,
    .opciones "serum noche" none [⟨"SN15", "SERUM NOCHE 15ML", [], [], [], "15ml"⟩] false,
    .sinCandidatos "lima azul" none]

/-- A product named twice in a message is asked about twice, and another one waits: two products
make three questions. -/
theorem one_product_is_asked_twice : ∃ bs,
    bloquesDe Unicode.latin (aplicar {} pideDosVeces false none).hechos
      (aplicar {} pideDosVeces false none).estado cartaDeJuan = some bs ∧
    ¬ PresupuestoExacto (aplicar {} pideDosVeces false none).hechos
      (aplicar {} pideDosVeces false none).estado bs := by
  refine ⟨_, rfl, fun h => ?_⟩
  have hcuenta := h.cuenta
  revert hcuenta
  decide

end Chatlink.Agent
