import Chatlink.Agent.Closing
import Chatlink.Agent.LineFrame

/-!
# The order of the open items

Every operation edits the open items by a few primitive edits, so what each edit keeps
is kept by a whole turn: one question per product text, one conflict per code. The
yes/no proposals have their own step lemma. Rule 7 counts the attempts of every product
and the ones that exhaust them leave as review lines.
-/
namespace Chatlink.Agent

open Lists Transition

/-! ## Edits -/

/-- One edit of the open items; the conflicts it may open are those with `K`. -/
inductive Retoque (K : Conflicto → Prop) : List Item → List Item → Prop
  | quita (i : Item) (is : List Item) : Retoque K is (is.erase i)
  | conflicto {c : Conflicto} (hc : K c) (is : List Item) :
      Retoque K is (quitaConflictos c.code is ++ [.conflicto c])
  | siNo (v : Propuesta) (is : List Item) : Retoque K is (is ++ [.siNo v])
  | revisar (texto : Texto) (qty : Option ℤ) (is : List Item) :
      Retoque K is (is ++ [.revisar texto qty])
  | producto {texto : Texto} {is : List Item} (qty : Option ℤ)
      (h : ∀ p, Item.producto p ∈ is → p.texto ≠ texto) :
      Retoque K is (is ++ [.producto { texto := texto, qty := qty, nuevo := true }])
  | cambia {f : Producto → Producto} (texto : Texto)
      (hf : ∀ p, (f p).texto = p.texto ∧ (f p).revisar = p.revisar) (is : List Item) :
      Retoque K is (cambiaProducto texto f is)

/-- A sequence of edits. -/
abbrev Retocado (K : Conflicto → Prop) := Relation.ReflTransGen (Retoque K)

/-- The conflict is between a number requested for its code and a line of the cart. -/
def Conflicto.Entre (c : Conflicto) (rs : List (Texto × Option ℤ)) (cart : List Linea) : Prop :=
  ∃ q, ∃ k ∈ cart, (c.code, some q) ∈ rs ∧ c.opcionesQty = sortedSet [q, k.qty, q + k.qty]

section Edits

variable {K : Conflicto → Prop}

theorem add_retocado {t : Trabajo} {code : Texto} {qty : Option ℤ} (name brand fuente aliasTexto : Texto)
    (hK : ∀ c : Conflicto, c.Entre [(code, qty)] t.e.cart → K c) :
    Retocado K t.e.openItems (t.add code name brand qty fuente aliasTexto).e.openItems := by
  rcases t.add_cases code name brand qty fuente aliasTexto with
    ⟨ln, -, -, h⟩ | ⟨ln, q, hln, rfl, -, h⟩ | ⟨-, h⟩
  · rw [h]
    exact .refl
  · rw [h]
    refine .single (.conflicto (c := ⟨code, _, _⟩) (hK _ ?_) _)
    exact ⟨q, ln, mem_of_linea hln, List.mem_singleton.mpr rfl, rfl⟩
  · rw [h]
    exact .refl

theorem addLineas_retocado (fuente : Texto) (items : List Linea) (t : Trabajo)
    (hK : ∀ c : Conflicto, c.Entre (items.map fun l => (l.code, some (orNum (some l.qty) 1)))
      (items.foldl (Trabajo.addLinea fuente) t).e.cart → K c) :
    Retocado K t.e.openItems (items.foldl (Trabajo.addLinea fuente) t).e.openItems := by
  induction items generalizing t with
  | nil => exact .refl
  | cons l items ih =>
    -- the line a request finds is still there at the end
    have hcart : t.e.cart ⊆ ((l :: items).foldl (Trabajo.addLinea fuente) t).e.cart :=
      (addLineas_cart_grows fuente (l :: items) t).subset
    refine (add_retocado l.name [] fuente [] ?_).trans (ih _ ?_)
    · rintro c ⟨q, k, hk, hreq, hops⟩
      refine hK c ⟨q, k, hcart hk, ?_, hops⟩
      obtain h := List.mem_singleton.mp hreq
      rw [h]
      exact List.mem_cons_self
    · rintro c ⟨q, k, hk, hreq, hops⟩
      exact hK c ⟨q, k, hk, List.mem_cons_of_mem _ hreq, hops⟩

theorem nuevaSiNo_retocado (t : Trabajo) (v : Propuesta) (titulo : Titulo) :
    Retocado K t.e.openItems (t.nuevaSiNo v titulo).1.e.openItems := by
  rcases t.nuevaSiNo_cases v titulo with ⟨w, -, h⟩ | ⟨-, h⟩
  all_goals rw [h]
  · exact .refl
  · exact .single (.siNo v _)

theorem setQty_retocado (t : Trabajo) (code name : Texto) (modo : Modo) (valor : Option ℤ) :
    Retocado K t.e.openItems (t.setQty code name modo valor).e.openItems := by
  rcases t.setQty_cases code name modo valor with
    ⟨-, h⟩ | ⟨ln, -, -, h⟩ | ⟨ln, w, -, -, h⟩ | ⟨ln, -, -, h⟩ | ⟨ln, q, -, h⟩
  all_goals rw [h]
  · exact .refl
  · exact .refl
  · exact .refl
  · exact .single (.siNo _ _)
  · exact .refl

theorem revisa_retocado (ps : List Producto) (items : List Item) :
    Retocado K items (revisa ps items) := by
  refine foldl_keeps (P := fun is => Retocado K items is) ps ?_ .refl
  intro is p _ h
  exact (h.tail (.quita _ _)).tail (.revisar _ _ _)

theorem ejecuta_retocado (t : Trabajo) (v : Propuesta)
    (hK : v.tipo.deLineas → ∀ c : Conflicto,
      c.Entre (v.items.map fun l => (l.code, some (orNum (some l.qty) 1))) (ejecuta t v).e.cart → K c) :
    Retocado K t.e.openItems (ejecuta t v).e.openItems := by
  unfold ejecuta at hK ⊢
  cases ht : v.tipo with
  | cierre => exact cierre_openItems _ t ▸ revisa_retocado _ _
  | baja =>
    dsimp only
    split
    · exact .refl
    · exact .refl
  | media =>
    rw [ht] at hK
    exact addLineas_retocado "media" v.items t (hK rfl)
  | repetir =>
    rw [ht] at hK
    exact addLineas_retocado "repetir" v.items t (hK rfl)

/-- A product whose text is not open yet may be opened. -/
theorem nuevo_retoque {e : Estado} {texto : Texto} (qty : Option ℤ)
    (h : e.productosAbiertos.find? (fun p => p.texto = texto) = none) :
    Retoque K e.openItems
      (e.openItems ++ [.producto { texto := texto, qty := qty, nuevo := true }]) := by
  refine .producto qty fun p hp => ?_
  simpa using List.find?_eq_none.mp h p (mem_productosAbiertos.mpr hp)

/-- The step lemma: an operation is a sequence of edits. -/
theorem paso_retocado (fm : Bool) (t : Trabajo) (op : Op)
    (hK : ∀ c : Conflicto, c.Entre (op.pedidas fm t.e) (paso fm t op).e.cart → K c) :
    Retocado K t.e.openItems (paso fm t op).e.openItems := by
  have hgrows (u : Trabajo) (code name brand : Texto) (qty : Option ℤ) (fuente aliasTexto : Texto) :
      u.e.cart ⊆ (u.add code name brand qty fuente aliasTexto).e.cart := by
    rw [Trabajo.add_cart]
    split
    · exact List.Subset.refl _
    · exact List.subset_append_left _ _
  cases op with
  | add code name brand qty fuente =>
    cases fm with
    | true => exact .refl
    | false =>
      refine add_retocado name brand fuente [] fun c => ?_
      rintro ⟨q, k, hk, hreq, hops⟩
      exact hK c ⟨q, k, hgrows t _ _ _ _ _ _ hk, hreq, hops⟩
  | modificar code name modo valor b vn =>
    simp only [paso]
    split
    · split
      · exact .refl
      · split
        · exact .refl
        · exact .refl
    · exact setQty_retocado t code name modo valor
  | opciones texto qty ops ind =>
    have hcambia (is : List Item) : Retoque K is (cambiaProducto texto (fun p =>
        { p with qty := qty.orElse fun _ => p.qty
                 opciones := ops.filter fun o => !p.rechazados.contains o.code }) is) := by
      refine .cambia texto ?_ is
      exact fun p => ⟨rfl, rfl⟩
    simp only [paso]
    split
    · split
      · exact .single (hcambia _)
      · next hnone => exact .tail (.single (nuevo_retoque qty hnone)) (hcambia _)
    · split
      · exact .single (hcambia _)
      · next hnone => exact .tail (.single (nuevo_retoque qty hnone)) (hcambia _)
  | sinCandidatos texto qty =>
    simp only [paso]
    split
    · exact .refl
    · next hnone => exact .single (nuevo_retoque qty hnone)
  | codigoNoExiste code => exact .refl
  | rechazo objetivo =>
    simp only [paso]
    split
    · exact .refl
    · refine .single (.cambia _ ?_ _)
      exact fun p => ⟨rfl, rfl⟩
  | elige itemTexto code name brand fuente =>
    simp only [paso, Op.pedidas] at hK ⊢
    split
    · next p hp =>
      rw [hp] at hK
      refine .trans (.single (.quita (.producto p) _))
        (add_retocado (t := t.quita (.producto p)) name brand fuente itemTexto fun c => ?_)
      rintro ⟨q, k, hk, hreq, hops⟩
      exact hK c ⟨q, k, hgrows (t.quita (.producto p)) _ _ _ _ _ _ hk, hreq, hops⟩
    · next hp =>
      rw [hp] at hK
      refine add_retocado name brand fuente itemTexto fun c => ?_
      rintro ⟨q, k, hk, hreq, hops⟩
      exact hK c ⟨q, k, hgrows t _ _ _ _ _ _ hk, hreq, hops⟩
  | eligeQty code valor =>
    simp only [paso]
    split
    · exact .refl
    · next c hc =>
      split
      · split
        · exact .single (.quita (.conflicto c) _)
        · exact .single (.quita (.conflicto c) _)
      · exact .refl
  | referenciaAmbigua texto candidatas => exact .refl
  | cantidadGlobal valor =>
    simp only [paso]
    split
    · split
      · exact .refl
      · exact .refl
    · exact .refl
  | repetirUltimo qo =>
    simp only [paso]
    split
    · exact .refl
    · exact nuevaSiNo_retocado t _ _
  | cerrar =>
    simp only [paso]
    split
    · exact .refl
    · exact nuevaSiNo_retocado t _ _
  | confirmar =>
    simp only [paso, Op.pedidas] at hK ⊢
    split
    · exact .refl
    · next v hv =>
      rw [hv] at hK
      refine .trans (.single (.quita (.siNo v) _)) (ejecuta_retocado (t.quita (.siNo v)) v ?_)
      intro ht
      simpa only [ht, if_true] using hK
  | negar =>
    simp only [paso]
    split
    · exact .refl
    · next v hv => exact .single (.quita (.siNo v) _)
  | otro subtipo =>
    cases subtipo with
    | noSabe =>
      simp only [paso, pasoOtro]
      split
      · exact .refl
      · exact mandaRevisar_openItems _ t ▸ revisa_retocado _ _
    | _ => exact .refl

end Edits

/-! ## What the edits keep -/

/-- The text under which a product is asked about. -/
def Item.texto? : Item → Option Texto
  | .producto p => some p.texto
  | _ => none

/-- The code whose quantity is asked about. -/
def Item.disputa? : Item → Option Texto
  | .conflicto c => some c.code
  | _ => none

/-- One question per product text and one conflict per code. -/
structure Unicos (is : List Item) : Prop where
  productos : (is.filterMap Item.texto?).Nodup
  conflictos : (is.filterMap Item.disputa?).Nodup

theorem mem_disputas {is : List Item} {code : Texto} :
    code ∈ is.filterMap Item.disputa? ↔ ∃ c, Item.conflicto c ∈ is ∧ c.code = code := by
  constructor
  · intro h
    obtain ⟨i, hi, hc⟩ := List.mem_filterMap.mp h
    cases i with
    | conflicto c => exact ⟨c, hi, Option.some.inj hc⟩
    | producto p => cases hc
    | revisar texto qty => cases hc
    | siNo v => cases hc
  · rintro ⟨c, hc, rfl⟩
    exact List.mem_filterMap.mpr ⟨_, hc, rfl⟩

theorem mem_textos {is : List Item} {texto : Texto} :
    texto ∈ is.filterMap Item.texto? ↔ ∃ p, Item.producto p ∈ is ∧ p.texto = texto := by
  constructor
  · intro h
    obtain ⟨i, hi, ht⟩ := List.mem_filterMap.mp h
    cases i with
    | producto p => exact ⟨p, hi, Option.some.inj ht⟩
    | conflicto c => cases ht
    | revisar texto qty => cases ht
    | siNo v => cases ht
  · rintro ⟨p, hp, rfl⟩
    exact List.mem_filterMap.mpr ⟨_, hp, rfl⟩

theorem Unicos.sublist {is is' : List Item} (h : Unicos is) (hs : is'.Sublist is) : Unicos is' :=
  ⟨h.productos.sublist (hs.filterMap _), h.conflictos.sublist (hs.filterMap _)⟩

/-- An item that is neither a product nor a conflict does not count. -/
theorem Unicos.append {is : List Item} (h : Unicos is) {i : Item} (ht : i.texto? = none)
    (hc : i.disputa? = none) : Unicos (is ++ [i]) := by
  constructor
  · rw [filterMap_append_of_none ht]
    exact h.productos
  · rw [filterMap_append_of_none hc]
    exact h.conflictos

theorem Retoque.unicos {K : Conflicto → Prop} {is is' : List Item} (h : Retoque K is is') (hu : Unicos is) : Unicos is' := by
  cases h with
  | quita i => exact hu.sublist List.erase_sublist
  | siNo v => exact hu.append rfl rfl
  | revisar texto qty => exact hu.append rfl rfl
  | @conflicto c hc =>
    have hsub : Unicos (quitaConflictos c.code is) := hu.sublist List.filter_sublist
    constructor
    · rw [filterMap_append_of_none rfl]
      exact hsub.productos
    · -- the conflicts of the code were taken out before the new one comes
      refine nodup_filterMap_append hsub.conflictos rfl fun hin => ?_
      obtain ⟨d, hd, hcode⟩ := mem_disputas.mp hin
      have hout := (List.mem_filter.mp hd).2
      simp [Item.conflictoDe, hcode] at hout
  | producto qty hne =>
    constructor
    · refine nodup_filterMap_append hu.productos rfl fun hin => ?_
      obtain ⟨p, hp, ht⟩ := mem_textos.mp hin
      exact hne p hp ht
    · rw [filterMap_append_of_none rfl]
      exact hu.conflictos
  | cambia texto hf =>
    constructor
    · rw [filterMap_cambiaProducto_of_eq (f := Item.texto?) fun p => congrArg some (hf p).1]
      exact hu.productos
    · rw [filterMap_cambiaProducto (f := Item.disputa?) fun _ => rfl]
      exact hu.conflictos

theorem Retocado.unicos {K : Conflicto → Prop} {is is' : List Item} (h : Retocado K is is')
    (hu : Unicos is) : Unicos is' := by
  induction h with
  | refl => exact hu
  | tail _ hr ih => exact hr.unicos ih

/-- No product is on its way to review. -/
def SinRevisar (is : List Item) : Prop := ∀ p, Item.producto p ∈ is → p.revisar = false

theorem Retocado.sinRevisar {K : Conflicto → Prop} {is is' : List Item} (h : Retocado K is is')
    (hs : SinRevisar is) : SinRevisar is' := by
  induction h with
  | refl => exact hs
  | tail _ hr ih =>
    intro p hp
    cases hr with
    | quita i => exact ih p (List.mem_of_mem_erase hp)
    | conflicto c =>
      rcases List.mem_append.mp hp with hp | hp
      · exact ih p (List.mem_of_mem_filter hp)
      · cases List.mem_singleton.mp hp
    | siNo v =>
      rcases List.mem_append.mp hp with hp | hp
      · exact ih p hp
      · cases List.mem_singleton.mp hp
    | revisar texto qty =>
      rcases List.mem_append.mp hp with hp | hp
      · exact ih p hp
      · cases List.mem_singleton.mp hp
    | producto qty hne =>
      rcases List.mem_append.mp hp with hp | hp
      · exact ih p hp
      · obtain rfl := Item.producto.inj (List.mem_singleton.mp hp)
        rfl
    | cambia texto hf =>
      rcases mem_cambiaProducto hp with hp | ⟨q, hq, -, heq⟩
      · exact ih p hp
      · obtain rfl := Item.producto.inj heq
        rw [(hf q).2]
        exact ih q hq

/-- A conflict after the edits was there before, or is one they may open. -/
theorem Retocado.conflictos {K : Conflicto → Prop} {is is' : List Item} (h : Retocado K is is')
    {c : Conflicto} (hc : Item.conflicto c ∈ is') : Item.conflicto c ∈ is ∨ K c := by
  induction h with
  | refl => exact Or.inl hc
  | tail _ hr ih =>
    cases hr with
    | quita i => exact ih (List.mem_of_mem_erase hc)
    | @conflicto d hd =>
      rcases List.mem_append.mp hc with hc | hc
      · exact ih (List.mem_of_mem_filter hc)
      · obtain rfl := Item.conflicto.inj (List.mem_singleton.mp hc)
        exact Or.inr hd
    | siNo v =>
      rcases List.mem_append.mp hc with hc | hc
      · exact ih hc
      · cases List.mem_singleton.mp hc
    | revisar texto qty =>
      rcases List.mem_append.mp hc with hc | hc
      · exact ih hc
      · cases List.mem_singleton.mp hc
    | producto qty hne =>
      rcases List.mem_append.mp hc with hc | hc
      · exact ih hc
      · cases List.mem_singleton.mp hc
    | cambia texto hf =>
      rcases mem_cambiaProducto hc with hc | ⟨p, -, -, hp⟩
      · exact ih hc
      · cases hp

/-! ## Pass 2 -/

theorem reglaMedia_retocado (K : Conflicto → Prop) (t : Trabajo) :
    Retocado K t.e.openItems (reglaMedia t).e.openItems := by
  rcases reglaMedia_openItems t with h | ⟨v, h⟩
  · rw [h]
  · rw [h]
    exact .single (.siNo v _)

theorem regla3_retocado {K : Conflicto → Prop} (t : Trabajo)
    (hK : ∀ r ∈ t.seenAdds, 1 < (distintas r.2).length → ∀ name,
      K ⟨r.1, name, sortedSet (distintas r.2 ++ [(distintas r.2).sum])⟩) :
    Retocado K t.e.openItems (regla3 t).e.openItems := by
  refine foldl_keeps (P := fun u : Trabajo => Retocado K t.e.openItems u.e.openItems) _ ?_ .refl
  intro u r hr hu
  unfold regla3Una
  dsimp only
  split
  · next hd => exact hu.tail (.conflicto (c := ⟨r.1, _, _⟩) (hK r hr hd _) _)
  · exact hu

theorem Unicos.map {is : List Item} (h : Unicos is) {f : Item → Item}
    (ht : ∀ i, (f i).texto? = i.texto?) (hc : ∀ i, (f i).disputa? = i.disputa?) :
    Unicos (is.map f) := by
  constructor
  · rw [filterMap_map_of_eq ht]
    exact h.productos
  · rw [filterMap_map_of_eq hc]
    exact h.conflictos

theorem regla11_unicos {t : Trabajo} (h : Unicos t.e.openItems) :
    Unicos (regla11 t).e.openItems := by
  rw [regla11_openItems]
  split
  · exact h
  · apply h.map
    · intro i
      cases i <;> rfl
    · intro i
      cases i <;> rfl

theorem regla11_sinRevisar {t : Trabajo} (h : SinRevisar t.e.openItems) :
    SinRevisar (regla11 t).e.openItems := by
  rw [regla11_openItems]
  split
  · exact h
  · intro p hp
    obtain ⟨i, hi, hip⟩ := List.mem_map.mp hp
    cases i with
    | producto q =>
      obtain rfl := Item.producto.inj hip
      exact h q hi
    | revisar texto qty => cases hip
    | conflicto c => cases hip
    | siNo v => cases hip

/-- What rule 7 makes of an item: a product counts the turn. -/
def Item.contado (huboProgreso : Bool) : Item → Item
  | .producto p => .producto
      { p with intentos := some (intentosTras huboProgreso p)
               revisar := maxIntentosProducto ≤ intentosTras huboProgreso p || p.revisar }
  | i => i

theorem regla7Item_fst (hubo : Bool) (ya hs : List Hecho) (i : Item) :
    (regla7Item hubo ya hs i).1 = i.contado hubo := by
  cases i with
  | producto p =>
    simp only [regla7Item, Item.contado]
    split
    · next h => simp [h]
    · next h =>
      split
      · simp [h]
      · split <;> simp [h]
  | conflicto c =>
    simp only [regla7Item, Item.contado]
    split <;> rfl
  | siNo v =>
    simp only [regla7Item, Item.contado]
    split
    · rfl
    · split <;> rfl
  | revisar texto qty => rfl

theorem regla7Items_fst (hubo : Bool) (ya : List Hecho) (items : List Item) (hs : List Hecho) :
    (regla7Items hubo ya hs items).1 = items.map (Item.contado hubo) := by
  induction items generalizing hs with
  | nil => rfl
  | cons i items ih => rw [regla7Items, List.map_cons, regla7Item_fst, ih]

/-- The open items are in order: one proposal, one conflict per code, one question per
text, no working mark, and attempts left. -/
structure Estado.EnOrden (e : Estado) : Prop where
  siNos : e.siNos.length ≤ 1
  conflictos : (e.conflictos.map Conflicto.code).Nodup
  productos : (e.productosAbiertos.map Producto.texto).Nodup
  marcas : ∀ p ∈ e.productosAbiertos, p.nuevo = false ∧ p.revisar = false
  intentos : ∀ p ∈ e.productosAbiertos, p.intentos.getD 0 < maxIntentosProducto

theorem conflictos_codes (e : Estado) :
    e.conflictos.map Conflicto.code = e.openItems.filterMap Item.disputa? := by
  rw [Estado.conflictos, List.map_filterMap]
  congr 1
  funext i
  cases i <;> rfl

theorem productos_textos (e : Estado) :
    e.productosAbiertos.map Producto.texto = e.openItems.filterMap Item.texto? := by
  rw [Estado.productosAbiertos, List.map_filterMap]
  congr 1
  funext i
  cases i <;> rfl

theorem Estado.EnOrden.unicos {e : Estado} (h : e.EnOrden) : Unicos e.openItems :=
  ⟨productos_textos e ▸ h.productos, conflictos_codes e ▸ h.conflictos⟩

theorem Estado.EnOrden.sinRevisar {e : Estado} (h : e.EnOrden) : SinRevisar e.openItems :=
  fun p hp => (h.marcas p (mem_productosAbiertos.mpr hp)).2

/-- A product that is still open after the exhausted ones left was not marked. -/
theorem mem_agotados {is : List Item} (h : Unicos is) {p : Producto}
    (hp : Item.producto p ∈ agotados is) : Item.producto p ∈ is ∧ p.revisar = false := by
  have hnd : (is.filterMap Item.producto?).Nodup := by
    refine List.Nodup.of_map Producto.texto ?_
    exact productos_textos { openItems := is } ▸ h.productos
  have hmem : p ∈ (agotados is).filterMap Item.producto? := List.mem_filterMap.mpr ⟨_, hp, rfl⟩
  have hdiff : (agotados is).filterMap Item.producto? =
      (is.filterMap Item.producto?).diff ((is.filterMap Item.producto?).filter Producto.revisar) := by
    rw [List.diff_eq_foldl]
    exact revisa_productos _ is
  rw [hdiff, hnd.mem_sdiff_iff] at hmem
  obtain ⟨i, hi, hip⟩ := List.mem_filterMap.mp hmem.1
  obtain rfl := (producto?_eq_some i p).mp hip
  refine ⟨hi, ?_⟩
  by_contra hne
  exact hmem.2 (List.mem_filter.mpr ⟨hmem.1, by simpa using hne⟩)

/-- Pass 2 puts the open items in order. -/
theorem pase2_enOrden {t : Trabajo} (hu : Unicos t.e.openItems) (hr : SinRevisar t.e.openItems)
    (hs : t.e.siNos.length ≤ 1) : (pase2 t).e.EnOrden := by
  generalize hitems : (regla11 (regla3 (reglaMedia t))).e.openItems = items
  have hpre : Retocado (fun _ => True) t.e.openItems (regla3 (reglaMedia t)).e.openItems :=
    (reglaMedia_retocado _ t).trans (regla3_retocado _ fun _ _ _ _ => trivial)
  have hun : Unicos items := hitems ▸ regla11_unicos (hpre.unicos hu)
  have hsr : SinRevisar items := hitems ▸ regla11_sinRevisar (hpre.sinRevisar hr)
  -- after rule 7
  generalize hhubo : (regla11 (regla3 (reglaMedia t))).hechos.any Hecho.progreso = hubo
  have hun7 : Unicos (items.map (Item.contado hubo)) := by
    apply hun.map
    · intro i
      cases i <;> rfl
    · intro i
      cases i <;> rfl
  have hfinal : (pase2 t).e.openItems =
      (agotados (items.map (Item.contado hubo))).map Item.sinMarca := by
    show (agotados (regla7 (regla11 (regla3 (reglaMedia t)))).e.openItems).map Item.sinMarca = _
    rw [← hitems, ← hhubo, ← regla7Items_fst]
    rfl
  have hunf : Unicos (pase2 t).e.openItems := by
    rw [hfinal]
    apply (Retocado.unicos (revisa_retocado (K := fun _ => True) _ _) hun7).map
    · intro i
      cases i <;> rfl
    · intro i
      cases i <;> rfl
  -- every product that is left went through rule 7 with attempts to spare
  have hprod : ∀ p ∈ (pase2 t).e.productosAbiertos,
      (p.nuevo = false ∧ p.revisar = false) ∧ p.intentos.getD 0 < maxIntentosProducto := by
    intro p hp
    rw [mem_productosAbiertos, hfinal] at hp
    obtain ⟨i, hi, hip⟩ := List.mem_map.mp hp
    cases i with
    | producto q =>
      obtain rfl := Item.producto.inj hip
      obtain ⟨hq, hrev⟩ := mem_agotados hun7 hi
      obtain ⟨j, hj, hjq⟩ := List.mem_map.mp hq
      cases j with
      | producto r =>
        obtain rfl := Item.producto.inj hjq
        simp only [Bool.or_eq_false_iff, decide_eq_false_iff_not, not_le] at hrev
        exact ⟨⟨rfl, by simp [hrev.1, hrev.2]⟩, hrev.1⟩
      | revisar texto qty => cases hjq
      | conflicto c => cases hjq
      | siNo v => cases hjq
    | revisar texto qty => cases hip
    | conflicto c => cases hip
    | siNo v => cases hip
  refine ⟨?_, conflictos_codes _ ▸ hunf.conflictos, productos_textos _ ▸ hunf.productos,
    fun p hp => (hprod p hp).1, fun p hp => (hprod p hp).2⟩
  rw [pase2_siNos, reglaMedia_siNos]
  split
  · split <;> simp
  · exact hs

/-! ## Whole turns -/

section Turn

variable {t : Turno}

theorem tras_siNos_le (h : t.estado.siNos.length ≤ 1) (xs : List Op) :
    (t.tras xs).e.siNos.length ≤ 1 := by
  induction xs using List.reverseRecOn with
  | nil => exact h
  | append_singleton xs op ih =>
    rw [Turno.tras_concat, paso_siNos]
    split
    · rw [List.length_tail]
      omega
    · split
      · exact Option.length_toList_le
      · exact ih

theorem tras_retocado (xs : List Op) :
    Retocado (fun _ => True) t.estado.openItems (t.tras xs).e.openItems := by
  induction xs using List.reverseRecOn with
  | nil => exact .refl
  | append_singleton xs op ih =>
    rw [Turno.tras_concat]
    exact ih.trans (paso_retocado _ _ op fun _ _ => trivial)

theorem resultado_enOrden (hu : Unicos t.estado.openItems) (hr : SinRevisar t.estado.openItems)
    (hs : t.estado.siNos.length ≤ 1) : t.resultado.estado.EnOrden := by
  rw [Turno.resultado_estado]
  exact pase2_enOrden ((tras_retocado _).unicos hu) ((tras_retocado _).sinRevisar hr)
    (tras_siNos_le hs _)

/-- The product with these words is still open or under review after the turn, or an
operation picked a code for it. -/
def Turno.Conserva (t : Turno) (texto : Texto) : Prop :=
  (∃ p ∈ t.resultado.estado.productosAbiertos, p.texto = texto) ∨
    (∃ r ∈ t.resultado.estado.aRevisar, r.1 = texto) ∨
    ∃ op ∈ t.ops, ∃ code, op.Elige texto code

theorem tras_textos {x : Texto} (h : x ∈ t.estado.textos) (xs ys : List Op)
    (hops : t.ops = xs ++ ys) :
    x ∈ (t.tras xs).e.textos ∨ ∃ op ∈ t.ops, ∃ code, op.Elige x code := by
  induction xs using List.reverseRecOn generalizing ys with
  | nil => exact Or.inl h
  | append_singleton xs op ih =>
    have hsplit : t.ops = xs ++ op :: ys := by simpa using hops
    rcases ih (op :: ys) hsplit with hx | hpick
    · rw [Turno.tras_concat]
      refine (paso_textos _ _ op hx).imp_right ?_
      rintro ⟨code, he, -⟩
      exact ⟨op, by rw [hsplit]; simp, code, he⟩
    · exact Or.inr hpick

theorem pase2_textos {u : Trabajo} {x : Texto} (h : x ∈ u.e.textos) : x ∈ (pase2 u).e.textos := by
  obtain ⟨y, hy, rfl⟩ := List.mem_map.mp h
  rcases List.mem_append.mp hy with hy | hy
  · obtain ⟨p, hp, rfl⟩ := List.mem_map.mp hy
    rcases pase2_retira (mem_productosAbiertos.mp hp) with ⟨i', hi', hs⟩ | ⟨c, hc⟩
    · cases hs with
      | igual => exact textos_of_producto hi'
      | producto ht ho hq => exact ht ▸ textos_of_producto hi'
      | agotado hq => exact textos_of_revisar hi'
    · cases hc
  · obtain ⟨i, hi, hiy⟩ := List.mem_filterMap.mp hy
    cases i with
    | revisar texto qty =>
      obtain rfl := Option.some.inj hiy
      rcases pase2_retira hi with ⟨i', hi', hs⟩ | ⟨c, hc⟩
      · cases hs
        exact textos_of_revisar hi'
      · cases hc
    | producto p => cases hiy
    | conflicto c => cases hiy
    | siNo v => cases hiy

/-- No open product vanishes. -/
theorem producto_conservado {p : Producto} (h : p ∈ t.estado.productosAbiertos) :
    t.Conserva p.texto := by
  have hx : p.texto ∈ t.estado.textos := textos_of_producto (mem_productosAbiertos.mp h)
  rcases tras_textos hx t.ops [] (by simp) with hx | hpick
  · have hend := pase2_textos hx
    rw [← Turno.resultado_estado] at hend
    obtain ⟨y, hy, hyx⟩ := List.mem_map.mp hend
    rcases List.mem_append.mp hy with hy | hy
    · obtain ⟨q, hq, rfl⟩ := List.mem_map.mp hy
      exact Or.inl ⟨q, hq, hyx⟩
    · exact Or.inr (Or.inl ⟨y, hy, hyx⟩)
  · exact Or.inr (Or.inr hpick)

end Turn

/-! ## Sessions -/

theorem recontados_textos {P : Acto → Prop} {ps qs : List Producto} (h : Recontados P ps qs) :
    qs.map Producto.texto = ps.map Producto.texto := by
  induction h with
  | nil => rfl
  | cons hp _ ih => rw [List.map_cons, List.map_cons, hp.texto, ih]

theorem Estado.EnOrden.congr {e e' : Estado} (h : e.EnOrden) (heq : e'.openItems = e.openItems) :
    e'.EnOrden := by
  have hs : e'.siNos = e.siNos := by rw [Estado.siNos, heq]; rfl
  have hc : e'.conflictos = e.conflictos := by rw [Estado.conflictos, heq]; rfl
  have hp : e'.productosAbiertos = e.productosAbiertos := by
    rw [Estado.productosAbiertos, heq]
    rfl
  exact ⟨hs ▸ h.siNos, hc ▸ h.conflictos, hp ▸ h.productos, hp ▸ h.marcas, hp ▸ h.intentos⟩

theorem vacio_enOrden (cart : List Linea) : ({ lastClosedCart := cart } : Estado).EnOrden := by
  refine ⟨Nat.zero_le 1, List.nodup_nil, List.nodup_nil, ?_, ?_⟩
  · intro p hp
    exact absurd hp List.not_mem_nil
  · intro p hp
    exact absurd hp List.not_mem_nil

section Session

variable {U : Unicode} {s s' : Sesion} {x : Entrada}

theorem inicio_enOrden (h : (Estado.fromSession s).EnOrden) : s.inicio.EnOrden := by
  by_cases hc : s.orderStatus = .closed
  · rw [inicio_of_closed hc]
    exact vacio_enOrden _
  · rw [inicio_of_open hc]
    exact h

/-- The reducer starts from the items of the session, some of them counted again. -/
theorem turno_unicos (h : (Estado.fromSession s).EnOrden) {t : Turno}
    (ht : turnoDe U x.entorno s.archiva.paraElAgente x.mensaje x.extraccion = .ok (.turno t)) :
    Unicos t.estado.openItems ∧ SinRevisar t.estado.openItems ∧ t.estado.siNos.length ≤ 1 ∧
      t.estado.productosAbiertos.map Producto.texto =
        s.inicio.productosAbiertos.map Producto.texto := by
  have hini := inicio_enOrden h
  rcases turnoDe_cases ht with ⟨he, -, -⟩ | ⟨actos, hablar, -, hres, -, -⟩
  · have he' : t.estado = s.inicio := he
    rw [he']
    exact ⟨hini.unicos, hini.sinRevisar, hini.siNos, rfl⟩
  · obtain ⟨prods, qs, hrec, he', -⟩ := resolver_origen hres
    have hrec' : Recontados (· ∈ peticiones U s.inicio actos) s.inicio.productosAbiertos prods := hrec
    have hview : Recontado s.inicio t.estado prods := he' ▸ recontado hrec'
    have htx : t.estado.productosAbiertos.map Producto.texto =
        s.inicio.productosAbiertos.map Producto.texto := by
      rw [hview.productos]
      exact recontados_textos hrec'
    refine ⟨⟨?_, ?_⟩, ?_, hview.siNos ▸ hini.siNos, htx⟩
    · rw [← productos_textos, htx]
      exact hini.productos
    · rw [← conflictos_codes, hview.conflictos]
      exact hini.conflictos
    · intro p hp
      obtain ⟨q, hq, n, rfl, -⟩ := recontados_mem hrec' (hview.productos ▸ mem_productosAbiertos.mpr hp)
      exact (hini.marcas q hq).2

theorem turno_enOrden (h : (Estado.fromSession s).EnOrden) {t : Turno}
    (ht : turnoDe U x.entorno s.archiva.paraElAgente x.mensaje x.extraccion = .ok (.turno t)) :
    t.resultado.estado.EnOrden ∧ ∀ p ∈ s.inicio.productosAbiertos, t.Conserva p.texto := by
  obtain ⟨hun, hsr, hs, htx⟩ := turno_unicos h ht
  refine ⟨resultado_enOrden hun hsr hs, ?_⟩
  intro p hp
  have hmem : p.texto ∈ t.estado.productosAbiertos.map Producto.texto :=
    htx ▸ List.mem_map.mpr ⟨p, hp, rfl⟩
  obtain ⟨q, hq, hqp⟩ := List.mem_map.mp hmem
  exact hqp ▸ producto_conservado hq

theorem pasoSesion_enOrden (hp : pasoSesion U s x = some s')
    (h : (Estado.fromSession s).EnOrden) : (Estado.fromSession s').EnOrden := by
  obtain ⟨⟨s₁, k⟩, hrun, rfl⟩ := Option.map_eq_some_iff.mp hp
  rcases runTurn_cases hrun with ⟨-, rfl, -⟩ | ⟨r, hr, -, rfl, -⟩
  · refine h.congr ?_
    unfold Sesion.archiva
    split <;> rfl
  · have hestado : r.estado.EnOrden := by
      rcases runAgent_cases hr with hest | ⟨t, ht, hest⟩
      · rw [hest]
        exact inicio_enOrden h
      · rw [hest]
        exact (turno_enOrden h ht).1
    exact hestado.congr (coerceOpenItem_tipado r.estado.openItems)

/-- In every run from an empty session, every turn leaves the open items in order and
loses none of the products that were open when it began. -/
theorem openItems_inOrder {t : Turno} (h : Reachable (pasoSesion U) Libre {} s)
    (ht : turnoDe U x.entorno s.archiva.paraElAgente x.mensaje x.extraccion = .ok (.turno t)) :
    t.resultado.estado.EnOrden ∧ ∀ p ∈ s.inicio.productosAbiertos, t.Conserva p.texto := by
  have hs : (Estado.fromSession s).EnOrden :=
    h.invariant (I := fun s => (Estado.fromSession s).EnOrden) (vacio_enOrden [])
      fun _ _ _ _ hp hi => pasoSesion_enOrden hp hi
  exact turno_enOrden hs ht

/-- A product nobody knows stays open while the client closes the order. -/
theorem openItems_inOrder_of_pideDos :
    ∃ s t, run (pasoSesion .latin) {} [pideDos] = some s ∧
      turnoDe .latin cierra.entorno s.archiva.paraElAgente cierra.mensaje cierra.extraccion =
        .ok (.turno t) ∧
      s.inicio.productosAbiertos.map Producto.texto = [("pinzas doradas" : Texto)] ∧
      t.resultado.estado.EnOrden ∧ ∀ p ∈ s.inicio.productosAbiertos, t.Conserva p.texto := by
  have hrun : ((run (pasoSesion .latin) {} [pideDos]).map fun s =>
      (s.inicio.productosAbiertos.map Producto.texto,
        ((turnoDe .latin cierra.entorno s.archiva.paraElAgente cierra.mensaje
          cierra.extraccion).toOption.bind Desenlace.resultado?).isSome)) =
      some ([("pinzas doradas" : Texto)], true) := by
    decide +kernel
  obtain ⟨s, hs, hlast⟩ := Option.map_eq_some_iff.mp hrun
  obtain ⟨hopen, hturn⟩ := Prod.mk.inj hlast
  have hreach : Reachable (pasoSesion .latin) Libre {} s :=
    (reachable_of_replay _ hs .refl).mono fun _ _ _ => trivial
  obtain ⟨t, ht, -⟩ := turno_of_resultado? (Option.some_get hturn).symm
  exact ⟨s, t, hs, ht, hopen, openItems_inOrder hreach ht⟩

end Session

end Chatlink.Agent
