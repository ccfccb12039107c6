import Chatlink.Agent.Facts
import Chatlink.Agent.Quantities
import Chatlink.Lib.Transition

/-!
# What is open when the order closes

The close sends the open products to review. It does nothing about a quantity conflict:
its product reaches the salesman only through a line of the cart, and rule 3 takes that
line out. A product opened by an operation after the close is not sent to review either.
The invariant is that every open conflict has its line; it lives in every run whose turns
never suspend a line, never remove one that is being asked about and open nothing after
the close.
-/
namespace Chatlink.Agent

open Lists Transition

/-! ## Codes through an operation -/

/-- The codes whose line an operation removes. -/
def Op.borradas (e : Estado) : Op → List Texto
  | .modificar code _ modo _ conNumeral _ =>
    if modo = .eliminar ∧ conNumeral = false then [code] else []
  | .confirmar => match e.siNoVivo with
    | some v => if v.tipo = .baja then [v.code] else []
    | none => []
  | _ => []

theorem mem_borradas {e : Estado} {op : Op} {code : Texto} (h : op.Borra e code) :
    code ∈ op.borradas e := by
  cases op with
  | modificar c n modo valor b vn =>
    obtain ⟨rfl, rfl, rfl⟩ := h
    simp [Op.borradas]
  | confirmar =>
    obtain ⟨v, hv, ht, rfl⟩ := h
    simp [Op.borradas, hv, ht]
  | _ => cases h

/-- A code stays in the cart until an operation removes its line. -/
theorem paso_codes_keep (fm : Bool) (t : Trabajo) (op : Op) {c : Texto} (h : c ∈ t.e.codes)
    (hkeep : c ∉ op.borradas t.e) : c ∈ (paso fm t op).e.codes := by
  generalize hpaso : paso fm t op = t'
  have hef : Efecto t op t' := hpaso ▸ paso_efecto fm t op
  cases hef with
  | quieto hq => exact hq.codes ▸ h
  | aparta => exact h
  | dice => exact h
  | add name brand fuente al hu hop => exact Trabajo.add_codes_subset _ _ _ _ _ _ _ (hu.codes ▸ h)
  | @fija u ln q name hu hln hop =>
    have hc : c ∈ u.e.codes := hu.codes ▸ h
    show c ∈ (ponQty ln.code q u.e.cart).map Linea.code
    rw [ponQty_codes]
    exact hc
  | @nueva u code q name hu hln hop hq =>
    have hc : c ∈ u.e.codes := hu.codes ▸ h
    show c ∈ (u.e.cart ++ [Linea.mk code q name [] []]).map Linea.code
    rw [List.map_append]
    exact List.mem_append_left _ hc
  | @borra u code name hu hop =>
    obtain ⟨l, hl, rfl⟩ := List.mem_map.mp h
    refine List.mem_map.mpr ⟨l, List.mem_filter.mpr ⟨hu.cart ▸ hl, ?_⟩, rfl⟩
    rw [decide_eq_true_eq]
    rintro rfl
    exact hkeep (mem_borradas hop)
  | @lineas u v fuente hu hop hv ht =>
    have hc : c ∈ u.e.codes := hu.codes ▸ h
    exact ((addLineas_cart_grows fuente v.items u).map Linea.code).subset hc
  | cierra hu hop hv ht rs => exact hu.codes ▸ h

/-! ## The invariant -/

/-- Every open conflict has its line, and no code that can reach the cart is empty: a
line without a code does not survive the session. -/
structure Estado.Sano (e : Estado) : Prop where
  conflictos : ∀ c ∈ e.conflictos, c.code ∈ e.codes
  lineas : ∀ c ∈ e.codes, c ≠ []
  opciones : ∀ p ∈ e.productosAbiertos, ∀ o ∈ p.opciones, o.code ≠ []
  propuestas : ∀ v ∈ e.siNos, v.tipo.deLineas → ∀ c ∈ v.codes, c ≠ []

/-- The codes that an operation brings are not empty. -/
structure Op.ConCodigo (op : Op) : Prop where
  linea : ∀ c, op.codigo? = some c → c ≠ []
  ofertas : ∀ o ∈ op.ofertas, o.code ≠ []

theorem mem_conflictos {e : Estado} {c : Conflicto} :
    c ∈ e.conflictos ↔ Item.conflicto c ∈ e.openItems := by
  constructor
  · intro h
    obtain ⟨i, hi, hic⟩ := List.mem_filterMap.mp h
    obtain rfl := (conflicto?_eq_some i c).mp hic
    exact hi
  · intro h
    exact List.mem_filterMap.mpr ⟨_, h, rfl⟩

theorem mem_productosAbiertos {e : Estado} {p : Producto} :
    p ∈ e.productosAbiertos ↔ Item.producto p ∈ e.openItems := by
  constructor
  · intro h
    obtain ⟨i, hi, hip⟩ := List.mem_filterMap.mp h
    obtain rfl := (producto?_eq_some i p).mp hip
    exact hi
  · intro h
    exact List.mem_filterMap.mpr ⟨_, h, rfl⟩

theorem apertura_ne_nil {e : Estado} {op : Op} {v : Propuesta} (h : apertura e op = some v)
    (ht : v.tipo.deLineas) : ∀ c ∈ v.codes, c ≠ [] := by
  cases op with
  | repetirUltimo qo =>
    simp only [apertura] at h
    split at h
    · cases h
    · obtain rfl := Option.some.inj h
      intro c hc
      simp only [Propuesta.codes, List.map_map] at hc
      obtain ⟨l, hl, rfl⟩ := List.mem_map.mp hc
      have hcode : (lineaRepetida qo l).code = l.code := rfl
      rw [Function.comp_apply, hcode]
      simpa using (List.mem_filter.mp hl).2
  | cerrar =>
    simp only [apertura] at h
    split at h
    · cases h
    · obtain rfl := Option.some.inj h
      cases ht
  | modificar code name modo valor b vn =>
    simp only [apertura] at h
    split at h
    · split at h
      · obtain rfl := Option.some.inj h
        cases ht
      · cases h
    · cases h
  | _ => cases h

/-- The step lemma of the invariant. -/
theorem paso_sano (fm : Bool) {t : Trabajo} {op : Op} (ht : t.e.Sano) (hop : op.ConCodigo)
    (hkeep : ∀ c ∈ t.e.conflictos, c.code ∉ op.borradas t.e) : (paso fm t op).e.Sano := by
  refine ⟨?_, ?_, ?_, ?_⟩
  · intro c hc
    rcases (paso_mueve fm t op).abre _ (mem_conflictos.mp hc) with hi | hi
    · have hold := mem_conflictos.mpr hi
      exact paso_codes_keep fm t op (ht.conflictos c hold) (hkeep c hold)
    · cases hi with
      | conflicto hcode => exact hcode
  · intro c hc
    rcases paso_codes fm t op hc with hc | hc | ⟨-, v, hv, hl, hc⟩
    · exact ht.lineas c hc
    · exact hop.linea c hc
    · obtain ⟨vs, hvs⟩ := siNoVivo_eq_some.mp hv
      exact ht.propuestas v (by rw [hvs]; exact List.mem_cons_self) hl c hc
  · intro p hp
    rcases (paso_mueve fm t op).abre _ (mem_productosAbiertos.mp hp) with hi | hi
    · exact ht.opciones p (mem_productosAbiertos.mpr hi)
    · cases hi with
      | nuevo hask ho => exact fun o h => hop.ofertas o (ho o h)
      | cambia hq htx hqq ho => exact fun o h => hop.ofertas o (ho o h)
  · intro v hv
    rw [paso_siNos] at hv
    split at hv
    · exact ht.propuestas v (List.mem_of_mem_tail hv)
    · split at hv
      · exact apertura_ne_nil (Option.mem_toList.mp hv)
      · exact ht.propuestas v hv

/-! ## Products through an operation -/

/-- The words of the open products and of the review lines. -/
def Estado.textos (e : Estado) : List Texto := e.pendientes.map Prod.fst

theorem textos_of_producto {e : Estado} {p : Producto} (h : Item.producto p ∈ e.openItems) :
    p.texto ∈ e.textos := by
  have hp : (p.texto, p.qty) ∈ e.pendientes :=
    List.mem_append_left _ (List.mem_map.mpr ⟨p, mem_productosAbiertos.mpr h, rfl⟩)
  exact List.mem_map.mpr ⟨_, hp, rfl⟩

theorem textos_of_revisar {e : Estado} {texto : Texto} {qty : Option ℤ}
    (h : Item.revisar texto qty ∈ e.openItems) : texto ∈ e.textos := by
  have hr : (texto, qty) ∈ e.pendientes :=
    List.mem_append_right _ (List.mem_filterMap.mpr ⟨_, h, rfl⟩)
  exact List.mem_map.mpr ⟨_, hr, rfl⟩

/-- The operation picks a code for the product with these words. -/
def Op.Elige (op : Op) (texto code : Texto) : Prop :=
  ∃ name brand fuente, op = .elige texto code name brand fuente

/-- An open product stays among the open or reviewed ones until it is picked. -/
theorem paso_textos (fm : Bool) (t : Trabajo) (op : Op) {x : Texto} (h : x ∈ t.e.textos) :
    x ∈ (paso fm t op).e.textos ∨ ∃ code, op.Elige x code ∧ code ∈ (paso fm t op).e.codes := by
  have hret := (paso_mueve fm t op).retira
  obtain ⟨y, hy, rfl⟩ := List.mem_map.mp h
  rcases List.mem_append.mp hy with hy | hy
  · obtain ⟨p, hp, rfl⟩ := List.mem_map.mp hy
    rcases hret _ (mem_productosAbiertos.mp hp) with hi | hi
    · exact Or.inl (textos_of_producto hi)
    · cases hi with
      | elegido hop hc => exact Or.inr ⟨_, ⟨_, _, _, hop⟩, hc⟩
      | revisado hr => exact Or.inl (textos_of_revisar hr)
      | cambiado ht hp' => exact Or.inl (ht ▸ textos_of_producto hp')
  · obtain ⟨i, hi, hiy⟩ := List.mem_filterMap.mp hy
    cases i with
    | revisar texto qty =>
      obtain rfl := Option.some.inj hiy
      rcases hret _ hi with hi | hi
      · exact Or.inl (textos_of_revisar hi)
      · cases hi
    | producto p => cases hiy
    | conflicto c => cases hiy
    | siNo v => cases hiy

theorem paso_productos_nil (fm : Bool) {t : Trabajo} {op : Op}
    (hnil : t.e.productosAbiertos = []) (hop : op.pregunta? = none) :
    (paso fm t op).e.productosAbiertos = [] := by
  rw [List.eq_nil_iff_forall_not_mem]
  intro p hp
  rcases (paso_mueve fm t op).abre _ (mem_productosAbiertos.mp hp) with hi | hi
  · have hp' := mem_productosAbiertos.mpr hi
    rw [hnil] at hp'
    exact List.not_mem_nil hp'
  · cases hi with
    | nuevo hask ho =>
      rw [hop] at hask
      cases hask
    | cambia hq ht hqq ho =>
      rw [hnil] at hq
      exact List.not_mem_nil hq

/-- The close leaves no product open. -/
theorem paso_cierra_productos (fm : Bool) {t : Trabajo} {v : Propuesta}
    (hv : t.e.siNoVivo = some v) (ht : v.tipo = .cierre) :
    (paso fm t .confirmar).e.productosAbiertos = [] := by
  have hitems : (paso fm t .confirmar).e.openItems =
      revisa (t.quita (.siNo v)).e.productosAbiertos (t.quita (.siNo v)).e.openItems := by
    simp only [paso, hv, ejecuta, ht]
    exact cierre_openItems _ _
  rw [Estado.productosAbiertos, hitems]
  exact revisa_todos _

/-! ## The condition on a turn -/

/-- Each operation of the turn with the state it meets. -/
def Turno.pasos (t : Turno) : List (Estado × Op) :=
  t.ops.zipIdx.map fun (op, i) => ((t.tras (t.ops.take i)).e, op)

theorem mem_pasos {t : Turno} {xs ys : List Op} {op : Op} (h : t.ops = xs ++ op :: ys) :
    ((t.tras xs).e, op) ∈ t.pasos := by
  refine List.mem_map.mpr ⟨(op, xs.length), ?_, ?_⟩
  · rw [List.mk_mem_zipIdx_iff_getElem?, h]
    simp
  · simp [h]

def Op.elegido? : Op → Option Texto
  | .elige _ code _ _ _ => some code
  | _ => none

/-- The codes with an open conflict at some point of the turn, and the picked ones. -/
def Turno.enJuego (t : Turno) : List Texto :=
  (t.pasos.flatMap fun p => p.1.conflictos.map Conflicto.code) ++ t.ops.filterMap Op.elegido?

/-- Rule 3 finds no code asked with two different numbers. -/
def Trabajo.DeAcuerdo (t : Trabajo) : Prop := ∀ r ∈ t.seenAdds, (distintas r.2).length ≤ 1

/-- The turn suspends no line, removes none whose code is in play, and opens no product
after the close. -/
def Turno.Sereno (t : Turno) : Prop :=
  (t.tras t.ops).DeAcuerdo ∧
    (∀ p ∈ t.pasos, ∀ c ∈ p.2.borradas p.1, c ∉ t.enJuego) ∧
    ∀ p ∈ t.pasos, p.1.orderStatus = .closed → p.2.pregunta? = none

instance (t : Turno) : Decidable t.Sereno :=
  inferInstanceAs (Decidable ((∀ r ∈ (t.tras t.ops).seenAdds, (distintas r.2).length ≤ 1) ∧ _ ∧ _))

section Turn

variable {t : Turno}

theorem conflicto_enJuego {xs ys : List Op} {op : Op} (h : t.ops = xs ++ op :: ys) {c : Conflicto}
    (hc : c ∈ (t.tras xs).e.conflictos) : c.code ∈ t.enJuego := by
  apply List.mem_append_left
  exact List.mem_flatMap.mpr ⟨_, mem_pasos h, List.mem_map.mpr ⟨c, hc, rfl⟩⟩

theorem elegido_enJuego {op : Op} (h : op ∈ t.ops) {texto code : Texto} (hop : op.Elige texto code) :
    code ∈ t.enJuego := by
  obtain ⟨name, brand, fuente, rfl⟩ := hop
  apply List.mem_append_right
  exact List.mem_filterMap.mpr ⟨_, h, rfl⟩

theorem tras_sano (hs : t.Sereno) (h0 : t.estado.Sano) (hops : ∀ op ∈ t.ops, op.ConCodigo)
    (xs ys : List Op) (h : t.ops = xs ++ ys) : (t.tras xs).e.Sano := by
  induction xs using List.reverseRecOn generalizing ys with
  | nil => exact h0
  | append_singleton xs op ih =>
    have hsplit : t.ops = xs ++ op :: ys := by simpa using h
    rw [Turno.tras_concat]
    refine paso_sano _ (ih (op :: ys) hsplit) (hops op (by rw [hsplit]; simp)) ?_
    intro c hc hb
    exact hs.2.1 _ (mem_pasos hsplit) c.code hb (conflicto_enJuego hsplit hc)

/-- A code in play stays in the cart. -/
theorem codes_persist (hs : t.Sereno) {c : Texto} (hj : c ∈ t.enJuego) (xs ys zs : List Op)
    (h : t.ops = xs ++ ys ++ zs) (hc : c ∈ (t.tras xs).e.codes) : c ∈ (t.tras (xs ++ ys)).e.codes := by
  induction ys using List.reverseRecOn generalizing zs with
  | nil => simpa using hc
  | append_singleton ys op ih =>
    have hsplit : t.ops = (xs ++ ys) ++ op :: zs := by simpa using h
    rw [← List.append_assoc, Turno.tras_concat]
    refine paso_codes_keep _ _ op (ih (op :: zs) hsplit) ?_
    intro hb
    exact hs.2.1 _ (mem_pasos hsplit) c hb hj

/-- The words of a product are open or under review, or its code was picked. -/
theorem textos_persist (hs : t.Sereno) {x : Texto} (xs ys zs : List Op)
    (h : t.ops = xs ++ ys ++ zs) (hx : x ∈ (t.tras xs).e.textos) :
    x ∈ (t.tras (xs ++ ys)).e.textos ∨
      ∃ op ∈ t.ops, ∃ code, op.Elige x code ∧ code ∈ (t.tras (xs ++ ys)).e.codes := by
  induction ys using List.reverseRecOn generalizing zs with
  | nil => exact Or.inl (by simpa using hx)
  | append_singleton ys op ih =>
    have hsplit : t.ops = (xs ++ ys) ++ op :: zs := by simpa using h
    have hmem : op ∈ t.ops := by rw [hsplit]; simp
    rcases ih (op :: zs) hsplit with hx | ⟨op', hop', code, he, hc⟩
    · rw [← List.append_assoc, Turno.tras_concat]
      exact (paso_textos _ _ op hx).imp_right fun ⟨code, he, hc⟩ => ⟨op, hmem, code, he, hc⟩
    · right
      refine ⟨op', hop', code, he, ?_⟩
      rw [← List.append_assoc]
      exact codes_persist hs (elegido_enJuego hop' he) (xs ++ ys) [op] zs (by simpa using h) hc

/-- Once the order is closed no product is open. -/
theorem closed_productos (hs : t.Sereno) (h0 : t.estado.orderStatus ≠ .closed) (xs ys : List Op)
    (h : t.ops = xs ++ ys) (hc : (t.tras xs).e.orderStatus = .closed) :
    (t.tras xs).e.productosAbiertos = [] := by
  induction xs using List.reverseRecOn generalizing ys with
  | nil => exact absurd hc h0
  | append_singleton xs op ih =>
    have hsplit : t.ops = xs ++ op :: ys := by simpa using h
    rw [Turno.tras_concat] at hc ⊢
    rcases paso_closed _ _ _ hc with hbefore | ⟨rfl, v, hv, ht⟩
    · exact paso_productos_nil _ (ih (op :: ys) hsplit hbefore)
        (hs.2.2 _ (mem_pasos hsplit) hbefore)
    · exact paso_cierra_productos _ hv ht

/-! ## Pass 2 and the order -/

theorem regla3_of_deAcuerdo {u : Trabajo} (h : u.DeAcuerdo) : regla3 u = u := by
  refine foldl_keeps (P := fun v : Trabajo => v = u) u.seenAdds ?_ rfl
  rintro v r hr rfl
  have hle : ¬ 1 < (distintas r.2).length := Nat.not_lt.mpr (h r hr)
  unfold regla3Una
  dsimp only
  rw [if_neg hle]

theorem reglaMedia_deAcuerdo {u : Trabajo} (h : u.DeAcuerdo) : (reglaMedia u).DeAcuerdo := by
  unfold Trabajo.DeAcuerdo
  rw [(reglaMedia_frame u).1]
  exact h

theorem pase2_codes_of_deAcuerdo {u : Trabajo} (h : u.DeAcuerdo) :
    (pase2 u).e.codes = u.e.codes := by
  have heq : (pase2 u).e.codes = (regla11 (regla3 (reglaMedia u))).e.codes := rfl
  rw [heq, regla11_codes, regla3_of_deAcuerdo (reglaMedia_deAcuerdo h), Estado.codes,
    reglaMedia_cart]
  rfl

/-- Without rule 3 every item after pass 2, proposals apart, was there before it. -/
theorem pase2_abre_of_deAcuerdo {u : Trabajo} (h : u.DeAcuerdo) {i' : Item}
    (hi : i' ∈ (pase2 u).e.openItems) :
    (∃ i ∈ u.e.openItems, i.Sigue u.cantidadGlobal i') ∨ ∃ v, i' = .siNo v := by
  obtain ⟨i, hi, hs⟩ := (pase2_prosigue u).de i' hi
  rw [regla3_of_deAcuerdo (reglaMedia_deAcuerdo h)] at hi
  rcases reglaMedia_openItems u with hm | ⟨v, hm⟩
  all_goals rw [hm] at hi
  · exact Or.inl ⟨i, hi, hs⟩
  · rcases List.mem_append.mp hi with hi | hi
    · exact Or.inl ⟨i, hi, hs⟩
    · obtain rfl := List.mem_singleton.mp hi
      cases hs
      exact Or.inr ⟨v, rfl⟩

/-- The order holds the item: a product by its words or by the code picked for it, a
conflict by the line of its code. -/
def Representado (t : Turno) (k : KapaOrder) : Item → Prop
  | .producto p => p.texto ∈ k.review.map Prod.fst ∨
      ∃ op ∈ t.ops, ∃ code, op.Elige p.texto code ∧ code ∈ k.cart.map Linea.code
  | .conflicto c => c.code ∈ k.cart.map Linea.code
  | _ => True

/-- The order that a closed state leaves. -/
def Estado.pedido (e : Estado) : KapaOrder := ⟨e.cart, e.aRevisar⟩

/-- Everything that was open at some point of the turn is in its order. -/
structure Turno.NadaPerdido (t : Turno) (k : KapaOrder) : Prop where
  during : ∀ xs ys, t.ops = xs ++ ys → ∀ i ∈ (t.tras xs).e.openItems, Representado t k i
  after : ∀ i ∈ t.resultado.estado.openItems, Representado t k i

theorem revisado_of_closed {u : Trabajo} {x : Texto} (hnil : u.e.productosAbiertos = [])
    (h : x ∈ u.e.textos) : x ∈ (pase2 u).e.aRevisar.map Prod.fst := by
  obtain ⟨y, hy, rfl⟩ := List.mem_map.mp h
  rw [Estado.pendientes, hnil, List.map_nil, List.nil_append] at hy
  obtain ⟨i, hi, hiy⟩ := List.mem_filterMap.mp hy
  cases i with
  | revisar texto qty =>
    obtain rfl := Option.some.inj hiy
    rcases pase2_retira hi with ⟨i', hi', hs⟩ | ⟨c, hc⟩
    · cases hs
      exact List.mem_map.mpr ⟨(texto, qty), List.mem_filterMap.mpr ⟨_, hi', rfl⟩, rfl⟩
    · cases hc
  | producto p => cases hiy
  | conflicto c => cases hiy
  | siNo v => cases hiy

/-- The turn that closes loses nothing. -/
theorem nadaPerdido_of_sereno (hs : t.Sereno) (h0 : t.estado.Sano)
    (hst : t.estado.orderStatus ≠ .closed) (hops : ∀ op ∈ t.ops, op.ConCodigo)
    (hclosed : t.resultado.estado.orderStatus = .closed) :
    t.NadaPerdido t.resultado.estado.pedido := by
  rw [Turno.resultado_estado] at hclosed ⊢
  rw [pase2_orderStatus] at hclosed
  have hnil := closed_productos hs hst t.ops [] (by simp) hclosed
  have hcodes : ((pase2 (t.tras t.ops)).e.pedido.cart.map Linea.code) = (t.tras t.ops).e.codes :=
    pase2_codes_of_deAcuerdo hs.1
  have hduring : ∀ xs ys, t.ops = xs ++ ys → ∀ i ∈ (t.tras xs).e.openItems,
      Representado t (pase2 (t.tras t.ops)).e.pedido i := by
    intro xs ys hsplit i hi
    cases i with
    | producto p =>
      have hper := textos_persist hs xs ys [] (by simpa using hsplit) (textos_of_producto hi)
      rw [← hsplit] at hper
      rcases hper with hx | ⟨op, hop, code, he, hc⟩
      · exact Or.inl (revisado_of_closed hnil hx)
      · exact Or.inr ⟨op, hop, code, he, hcodes ▸ hc⟩
    | conflicto c =>
      have hc := (tras_sano hs h0 hops xs ys hsplit).conflictos c (mem_conflictos.mpr hi)
      show c.code ∈ (pase2 (t.tras t.ops)).e.pedido.cart.map Linea.code
      rw [hcodes]
      cases ys with
      | nil =>
        rw [hsplit, List.append_nil]
        exact hc
      | cons op ys =>
        have hj := conflicto_enJuego hsplit (mem_conflictos.mpr hi)
        have hend := codes_persist hs hj xs (op :: ys) [] (by simpa using hsplit) hc
        rwa [← hsplit] at hend
    | revisar texto qty => trivial
    | siNo v => trivial
  refine ⟨hduring, ?_⟩
  intro i hi
  rw [Turno.resultado_estado] at hi
  rcases pase2_abre_of_deAcuerdo hs.1 hi with ⟨j, hj, hsig⟩ | ⟨v, rfl⟩
  · have hrep := hduring t.ops [] (by simp) j hj
    cases hsig with
    | igual => exact hrep
    | producto ht ho hq =>
      simp only [Representado, ht]
      exact hrep
    | agotado hq => trivial
  · trivial

theorem media_ne_nil (hops : ∀ op ∈ t.ops, op.ConCodigo) :
    ∀ x ∈ (t.tras t.ops).mediaBatch, x.1 ≠ [] := by
  refine foldl_keeps (P := fun u : Trabajo => ∀ x ∈ u.mediaBatch, x.1 ≠ []) t.ops ?_ (by simp [inicio])
  intro u op hop hu x hx
  rcases paso_mediaBatch t.fuenteMedia u op with h | ⟨code, name, brand, qty, fuente, rfl, h⟩
  all_goals rw [h] at hx
  · exact hu x hx
  · rcases List.mem_append.mp hx with hx | hx
    · exact hu x hx
    · obtain rfl := List.mem_singleton.mp hx
      exact (hops _ hop).linea code rfl

/-- The invariant at the end of a turn. -/
theorem resultado_sano (hs : t.Sereno) (h0 : t.estado.Sano) (hops : ∀ op ∈ t.ops, op.ConCodigo) :
    t.resultado.estado.Sano := by
  have hend := tras_sano hs h0 hops t.ops [] (by simp)
  rw [Turno.resultado_estado]
  refine ⟨?_, ?_, ?_, ?_⟩
  · intro c hc
    rw [pase2_codes_of_deAcuerdo hs.1]
    rcases pase2_abre_of_deAcuerdo hs.1 (mem_conflictos.mp hc) with ⟨i, hi, hsig⟩ | ⟨v, hv⟩
    · cases hsig
      exact hend.conflictos c (mem_conflictos.mpr hi)
    · cases hv
  · rw [pase2_codes_of_deAcuerdo hs.1]
    exact hend.lineas
  · intro p hp
    rcases pase2_abre_of_deAcuerdo hs.1 (mem_productosAbiertos.mp hp) with ⟨i, hi, hsig⟩ | ⟨v, hv⟩
    · cases hsig with
      | igual => exact hend.opciones p (mem_productosAbiertos.mpr hi)
      | producto ht ho hq =>
        rw [ho]
        exact hend.opciones _ (mem_productosAbiertos.mpr hi)
    · cases hv
  · intro v hv
    rw [pase2_siNos, reglaMedia_siNos] at hv
    split at hv
    · split at hv
      · exact absurd hv List.not_mem_nil
      · obtain rfl := List.mem_singleton.mp hv
        intro _ c hc
        simp only [Propuesta.codes, Trabajo.lineasMedia, List.map_map] at hc
        obtain ⟨x, hx, rfl⟩ := List.mem_map.mp hc
        exact media_ne_nil hops x hx
    · exact hend.propuestas v hv

end Turn

/-! ## What the resolver hands over -/

section Resolver

variable {U : Unicode} {E : Entorno} {e : Estado}

theorem ne_nil_of_mem_codesInText {c texto : Texto} (h : c ∈ codesInText U texto) : c ≠ [] := by
  have hne := (Bool.and_eq_true_iff.mp (List.mem_filter.mp h).2).1
  simpa using hne

theorem orElse_ne_nil {a b : Texto} (hb : b ≠ []) : Texto.orElse a b ≠ [] := by
  unfold Texto.orElse
  split
  · exact hb
  · next ha => simpa using ha

theorem Origen.conCodigo {actos : List Acto} {prods : List Producto} {qs : List Texto} {op : Op}
    (h : Origen U E e actos prods qs op) (he : e.Sano) : op.ConCodigo := by
  cases h with
  | responde ha ht hd hn hc hq =>
    refine ⟨?_, by simp [Op.ofertas]⟩
    rintro c ⟨⟩
    exact he.lineas _ (he.conflictos _ hc)
  | opcionViva hp ho =>
    refine ⟨?_, by simp [opElige, Op.ofertas]⟩
    rintro c ⟨⟩
    exact he.opciones _ hp _ ho
  | tecleado ha hc hl hr =>
    refine ⟨?_, by simp [Op.ofertas]⟩
    rintro c ⟨⟩
    apply orElse_ne_nil
    rcases codigoTecleado_mem hc with hc | hc
    · exact ne_nil_of_mem_codesInText hc
    · exact ne_nil_of_mem_codesInText hc
  | hallado ha hs hq ho =>
    refine ⟨?_, by simp [Op.ofertas]⟩
    rintro c ⟨⟩
    exact ho.1
  | halladoPara ha hs hq ho hp =>
    refine ⟨?_, by simp [opElige, Op.ofertas]⟩
    rintro c ⟨⟩
    exact ho.1
  | ofrece ha hs hq hops => exact ⟨fun c hc => (nomatch hc), fun o ho => (hops o ho).1⟩
  | modifica => exact ⟨fun c hc => (nomatch hc), by simp [Op.ofertas]⟩
  | sinCandidatos => exact ⟨fun c hc => (nomatch hc), by simp [Op.ofertas]⟩
  | global => exact ⟨fun c hc => (nomatch hc), by simp [Op.ofertas]⟩
  | repite => exact ⟨fun c hc => (nomatch hc), by simp [Op.ofertas]⟩
  | dice hd =>
    constructor
    · cases op <;> simp_all [Op.codigo?, Op.sinDatos]
    · cases op <;> simp_all [Op.ofertas, Op.sinDatos]

/-- Counting the products again keeps the invariant. -/
theorem conProductos_sano {P : Acto → Prop} {prods : List Producto} (he : e.Sano)
    (hrec : Recontados P e.productosAbiertos prods) :
    ({ e with openItems := conProductos e.openItems prods } : Estado).Sano := by
  have hview := recontado hrec
  refine ⟨hview.conflictos ▸ he.conflictos, he.lineas, ?_, hview.siNos ▸ he.propuestas⟩
  intro p hp
  have hp' : p ∈ prods := hview.productos ▸ hp
  obtain ⟨q, hq, x, rfl, -⟩ := recontados_mem hrec hp'
  exact he.opciones q hq

/-- What is open in the session is open when the operations begin. -/
theorem conProductos_representado {P : Acto → Prop} {prods : List Producto} {t : Turno}
    {k : KapaOrder} (hrec : Recontados P e.productosAbiertos prods)
    (h : ∀ i ∈ conProductos e.openItems prods, Representado t k i) :
    ∀ i ∈ e.openItems, Representado t k i := by
  intro i hi
  cases i with
  | producto p =>
    obtain ⟨j, hj⟩ := List.mem_iff_getElem?.mp (mem_productosAbiertos.mpr hi)
    obtain ⟨q, hq⟩ := recontados_get_left hrec hj
    obtain ⟨p', hp', hrq⟩ := recontados_get hrec hq
    obtain rfl : p = p' := by simpa [hj] using hp'
    have hmem : q ∈ (conProductos e.openItems prods).filterMap Item.producto? := by
      rw [conProductos_productos e.openItems hrec]
      exact List.mem_of_getElem? hq
    obtain ⟨i', hi', hiq⟩ := List.mem_filterMap.mp hmem
    obtain rfl := (producto?_eq_some i' q).mp hiq
    have hrep := h _ hi'
    simp only [Representado, hrq.texto] at hrep
    exact hrep
  | conflicto c =>
    have hview := conProductos_view (f := Item.conflicto?) (fun _ => rfl) e.openItems prods
    have hmem : c ∈ (conProductos e.openItems prods).filterMap Item.conflicto? := by
      rw [hview]
      exact mem_conflictos.mpr hi
    obtain ⟨i', hi', hic⟩ := List.mem_filterMap.mp hmem
    obtain rfl := (conflicto?_eq_some i' c).mp hic
    exact h _ hi'
  | revisar texto qty => trivial
  | siNo v => trivial

end Resolver

/-! ## Sessions -/

section Session

variable {U : Unicode} {s s' : Sesion} {x : Entrada}

/-- The state a turn begins with. -/
def Sesion.inicio (s : Sesion) : Estado := Estado.fromSession s.archiva.paraElAgente

/-- The session of an order that goes on satisfies the invariant. -/
def Sesion.Sana (s : Sesion) : Prop := s.orderStatus ≠ .closed → (Estado.fromSession s).Sano

theorem archiva_orderStatus (s : Sesion) : s.archiva.orderStatus = s.orderStatus := by
  unfold Sesion.archiva
  split <;> rfl

theorem inicio_of_open (h : s.orderStatus ≠ .closed) : s.inicio = Estado.fromSession s := by
  have harch : s.archiva = s := if_neg fun hc => h hc.1
  rw [Sesion.inicio, harch, Sesion.paraElAgente, if_neg h]

theorem inicio_of_closed (h : s.orderStatus = .closed) :
    s.inicio = { lastClosedCart := s.archiva.lastClosedCart } := by
  rw [Sesion.inicio, Sesion.paraElAgente, if_pos ((archiva_orderStatus s).trans h)]
  rfl

theorem inicio_orderStatus (s : Sesion) : s.inicio.orderStatus ≠ .closed := by
  by_cases h : s.orderStatus = .closed
  · rw [inicio_of_closed h]
    exact fun hidle => nomatch hidle
  · rw [inicio_of_open h]
    exact h

theorem vacio_sano (cart : List Linea) : ({ lastClosedCart := cart } : Estado).Sano := by
  constructor <;>
  · intro _ h
    exact absurd h List.not_mem_nil

theorem inicio_sano (h : s.Sana) : s.inicio.Sano := by
  by_cases hc : s.orderStatus = .closed
  · rw [inicio_of_closed hc]
    exact vacio_sano _
  · rw [inicio_of_open hc]
    exact h hc

/-- A state is read back from the session as it was, quantities of zero apart. -/
theorem fromSession_tras_sano {e : Estado} (s : Sesion) (he : e.Sano) :
    (Estado.fromSession (s.tras e)).Sano := by
  have hcart : e.cart.filter (fun l => !l.code.isEmpty) = e.cart := by
    rw [List.filter_eq_self]
    intro l hl
    simpa using he.lineas l.code (List.mem_map.mpr ⟨l, hl, rfl⟩)
  have hcodes : (Estado.fromSession (s.tras e)).codes = e.codes := by
    show ((e.cart.filter fun l => !l.code.isEmpty).map lineaLeida).map Linea.code = e.codes
    rw [hcart, List.map_map]
    rfl
  have hopen : (Estado.fromSession (s.tras e)).openItems = e.openItems :=
    coerceOpenItem_tipado e.openItems
  refine ⟨?_, ?_, ?_, ?_⟩
  · rw [Estado.conflictos, hopen, hcodes]
    exact he.conflictos
  · rw [hcodes]
    exact he.lineas
  · rw [Estado.productosAbiertos, hopen]
    exact he.opciones
  · rw [Estado.siNos, hopen]
    exact he.propuestas

/-- Every turn of the agent from this session with this input is quiet. -/
def enCalma (U : Unicode) (s : Sesion) (x : Entrada) : Bool :=
  match turnoDe U x.entorno s.archiva.paraElAgente x.mensaje x.extraccion with
  | .ok (.turno t) => decide t.Sereno
  | _ => true

theorem sereno_of_enCalma (h : enCalma U s x) {t : Turno}
    (ht : turnoDe U x.entorno s.archiva.paraElAgente x.mensaje x.extraccion = .ok (.turno t)) :
    t.Sereno := by
  unfold enCalma at h
  rw [ht] at h
  exact of_decide_eq_true h

/-- The state at the start of the reducer, and its operations, keep the invariant. -/
theorem turno_sano (hs : s.Sana) {t : Turno}
    (ht : turnoDe U x.entorno s.archiva.paraElAgente x.mensaje x.extraccion = .ok (.turno t)) :
    t.estado.Sano ∧ t.estado.orderStatus = s.inicio.orderStatus ∧ (∀ op ∈ t.ops, op.ConCodigo) ∧
      ∀ k, (∀ i ∈ t.estado.openItems, Representado t k i) →
        ∀ i ∈ s.inicio.openItems, Representado t k i := by
  have hini := inicio_sano hs
  rcases turnoDe_cases ht with ⟨he, hops, -⟩ | ⟨actos, hablar, -, hres, -, -⟩
  · rw [he, hops]
    exact ⟨hini, rfl, by simp, fun k hk => hk⟩
  · obtain ⟨prods, qs, hrec, he', horigen⟩ := resolver_origen hres
    rw [he']
    exact ⟨conProductos_sano hini hrec, rfl, fun op hop => (horigen op hop).conCodigo hini,
      fun k hk => conProductos_representado hrec hk⟩

/-- The session after a turn, or the one that a dropped turn leaves. -/
def pasoSesion (U : Unicode) (s : Sesion) (x : Entrada) : Option Sesion :=
  (runTurn U s x).map Prod.fst

theorem archiva_sana (hs : s.Sana) : s.archiva.Sana := by
  intro h
  rw [archiva_orderStatus] at h
  have harch : s.archiva = s := if_neg fun hc => h hc.1
  rw [harch]
  exact hs h

/-- The inversion lemma of `runTurn`. -/
theorem runTurn_cases {k : Option KapaOrder} (h : runTurn U s x = some (s', k)) :
    (x.adelantado ∧ s' = s.archiva ∧ k = none) ∨
      ∃ r, runAgent U x.entorno s.archiva.paraElAgente x.mensaje x.extraccion x.intro x.resume =
          .ok r ∧ r.inferenceDown = false ∧ s' = s.archiva.tras r.estado ∧
        k = if r.estado.orderStatus = .closed then some r.estado.pedido else none := by
  unfold runTurn at h
  dsimp only at h
  split at h
  · cases h
  · next r hr =>
    split at h
    · cases h
    · next hdown =>
      split at h
      · next ha =>
        cases h
        exact Or.inl ⟨ha, rfl, rfl⟩
      · cases h
        exact Or.inr ⟨r, hr, Bool.eq_false_of_not_eq_true hdown, rfl, rfl⟩

theorem pasoSesion_sana (hc : enCalma U s x) (h : pasoSesion U s x = some s') (hs : s.Sana) :
    s'.Sana := by
  obtain ⟨⟨s₁, k⟩, hrun, rfl⟩ := Option.map_eq_some_iff.mp h
  rcases runTurn_cases hrun with ⟨-, rfl, -⟩ | ⟨r, hr, -, rfl, -⟩
  · exact archiva_sana hs
  · intro _
    apply fromSession_tras_sano
    rcases runAgent_cases hr with hest | ⟨t, ht, hest⟩
    · rw [hest]
      exact inicio_sano hs
    · obtain ⟨h0, -, hops, -⟩ := turno_sano hs ht
      rw [hest]
      exact resultado_sano (sereno_of_enCalma hc ht) h0 hops

/-- Everything open at the start of the turn or at some point of it is in the order. -/
def NothingLost (U : Unicode) (s : Sesion) (x : Entrada) (k : KapaOrder) : Prop :=
  ∃ t, turnoDe U x.entorno s.archiva.paraElAgente x.mensaje x.extraccion = .ok (.turno t) ∧
    (∀ i ∈ s.inicio.openItems, Representado t k i) ∧ t.NadaPerdido k

/-- In a run of quiet turns from an empty session no order loses anything that was open. -/
theorem order_nothingLost {k : KapaOrder}
    (h : Reachable (pasoSesion U) (fun s x => enCalma U s x = true) {} s)
    (hc : enCalma U s x = true) (hrun : runTurn U s x = some (s', some k)) :
    NothingLost U s x k := by
  have hs : s.Sana := h.invariant (fun _ => vacio_sano []) fun _ _ _ hc hp hi => pasoSesion_sana hc hp hi
  rcases runTurn_cases hrun with ⟨-, -, hk⟩ | ⟨r, hr, -, -, hk⟩
  · cases hk
  · split at hk
    · next hclosed =>
      obtain rfl := Option.some.inj hk
      rcases runAgent_cases hr with hest | ⟨t, ht, hest⟩
      · rw [hest] at hclosed
        exact absurd hclosed (inicio_orderStatus s)
      · obtain ⟨h0, hst, hops, hstart⟩ := turno_sano hs ht
        rw [hest] at hclosed ⊢
        have hnada := nadaPerdido_of_sereno (sereno_of_enCalma hc ht) h0
          (hst ▸ inicio_orderStatus s) hops hclosed
        exact ⟨t, ht, hstart _ (hnada.during [] t.ops rfl), hnada⟩
    · cases hk

/-- An extraction of several acts. -/
def extraccionDe (actos : List (List (Texto × Json))) : Option Json :=
  some (.obj [("actos", .arr (actos.map .obj))])

/-- A request with its number, and an act without data. -/
def actoPedir (producto evidencia : Texto) (n : ℤ) : List (Texto × Json) :=
  [("tipo", .str "pedir"), ("producto_texto", .str producto), ("evidencia", .str evidencia),
    ("cantidad_modo", .str "total"), ("cantidad_valor", .int n)]

def actoSimple (tipo evidencia : Texto) : List (Texto × Json) :=
  [("tipo", .str tipo), ("evidencia", .str evidencia)]

/-- A catalogue with one product, the black kajal. -/
def soloKajal : Entorno where
  search _ q := if q = ("kajal negro" : Texto) then
    [⟨"KJ401", "KAJAL NEGRO", "ROC", "pedidos", [], true⟩] else []
  codeLookup := none
  matchCall _ := none

/-- The close of an order, asked and confirmed. -/
def cierra : Entrada := ⟨soloKajal, "eso es todo", extraccionDe [actoSimple "cerrar" "eso es todo"],
  false, false, false⟩

def confirma : Entrada := ⟨soloKajal, "si", extraccionDe [actoSimple "confirmar" "si"],
  false, false, false⟩

/-- A product found, another unknown, and the close: the unknown one goes to review. -/
def pideDos : Entrada := ⟨soloKajal, "ponme 6 del kajal negro y 2 pinzas doradas",
  extraccionDe [actoPedir "kajal negro" "6 del kajal negro" 6,
    actoPedir "pinzas doradas" "2 pinzas doradas" 2], false, false, false⟩

theorem nothingLost_of_pideDos :
    ∃ s s' k, replay (pasoSesion .latin) (enCalma .latin) {} [pideDos, cierra] = some s ∧
      runTurn .latin s confirma = some (s', some k) ∧
      k.review = [(("pinzas doradas" : Texto), some (2 : ℤ))] ∧ NothingLost .latin s confirma k := by
  have hrun : ((replay (pasoSesion .latin) (enCalma .latin) {} [pideDos, cierra]).map fun s =>
      (enCalma .latin s confirma, (runTurn .latin s confirma).bind fun r =>
        r.2.map KapaOrder.review)) = some (true, some [(("pinzas doradas" : Texto), some (2 : ℤ))]) := by
    decide +kernel
  obtain ⟨s, hs, hlast⟩ := Option.map_eq_some_iff.mp hrun
  obtain ⟨hcalm, hlast⟩ := Prod.mk.inj hlast
  obtain ⟨⟨s', o⟩, hturn, ho⟩ := Option.bind_eq_some_iff.mp hlast
  obtain ⟨k, rfl, hreview⟩ := Option.map_eq_some_iff.mp ho
  refine ⟨s, s', k, hs, hturn, hreview, ?_⟩
  exact order_nothingLost (reachable_of_replay _ hs .refl) hcalm hturn

/-- The same product asked with two numbers, and another that nobody knows. -/
def pideSeisOSiete : Entrada := ⟨soloKajal, "6 kajal negro, 7 kajal negro y 2 pinzas doradas",
  extraccionDe [actoPedir "kajal negro" "6 kajal negro" 6,
    actoPedir "kajal negro" "7 kajal negro" 7,
    actoPedir "pinzas doradas" "2 pinzas doradas" 2], false, false, false⟩

/-- The suspended line is in no order: the conflict about it is lost at the close. -/
theorem suspended_line_is_lost :
    ¬ ∀ s x s' k, Reachable (pasoSesion .latin) Libre {} s →
      runTurn .latin s x = some (s', some k) → NothingLost .latin s x k := by
  intro h
  have hrun : ((run (pasoSesion .latin) {} [pideSeisOSiete, cierra]).map fun s =>
      (s.inicio.openItems.filterMap Item.conflicto? |>.map Conflicto.code,
        (runTurn .latin s confirma).bind fun r => r.2.map fun k => k.cart.map Linea.code)) =
      some ([("KJ401" : Texto)], some []) := by
    decide +kernel
  obtain ⟨s, hs, hlast⟩ := Option.map_eq_some_iff.mp hrun
  obtain ⟨hconf, hlast⟩ := Prod.mk.inj hlast
  obtain ⟨⟨s', o⟩, hturn, ho⟩ := Option.bind_eq_some_iff.mp hlast
  obtain ⟨k, rfl, hcart⟩ := Option.map_eq_some_iff.mp ho
  have hreach : Reachable (pasoSesion .latin) Libre {} s :=
    (reachable_of_replay _ hs .refl).mono fun _ _ _ => trivial
  obtain ⟨t, -, hstart, -⟩ := h s confirma s' k hreach hturn
  have hmem : (("KJ401" : String).toList : Texto) ∈ s.inicio.conflictos.map Conflicto.code := by
    rw [Estado.conflictos, hconf]
    exact List.mem_singleton.mpr rfl
  obtain ⟨c, hc, -⟩ := List.mem_map.mp hmem
  have hrep : c.code ∈ k.cart.map Linea.code := hstart _ (mem_conflictos.mp hc)
  rw [hcart] at hrep
  exact List.not_mem_nil hrep

end Session

end Chatlink.Agent
