import Chatlink.Agent.CartWrites

/-!
# Products read from media

What the bot reads in a photo, an audio or a document is set aside and offered as one proposal at
the end of the turn, if the client has no other one to answer first. A turn with media keeps the
cart exactly when none of its operations takes a branch that writes it, and in such a turn no line
comes without a number.
-/
namespace Chatlink.Agent

open Lists

variable {e : Estado} {g : Option ℤ} {ops : List Op}

/-- A product read from the media, as it stands in the proposal. -/
def Op.leida : Op → Option Linea
  | .add code name _ qty fuente => some ⟨code, qty.getD 1, name, fuente, []⟩
  | _ => none

/-- The proposal the products read from the media make. -/
def propuestaMedia (ops : List Op) : Option Propuesta :=
  if ops.filterMap Op.leida = [] then none
  else some { tipo := .media, items := ops.filterMap Op.leida }

/-! ## The set-aside products -/

theorem Trabajo.add_mediaBatch (t : Trabajo) (code name brand : Texto) (qty : Option ℤ)
    (fuente aliasTexto : Texto) :
    (t.add code name brand qty fuente aliasTexto).mediaBatch = t.mediaBatch := by
  rcases t.add_cases code name brand qty fuente aliasTexto with
    ⟨ln, -, -, h⟩ | ⟨ln, q, -, -, -, h⟩ | ⟨-, h⟩
  all_goals rw [h]; rfl

theorem addLineas_mediaBatch (fuente : Texto) (items : List Linea) (t : Trabajo) :
    (items.foldl (Trabajo.addLinea fuente) t).mediaBatch = t.mediaBatch :=
  foldl_component (f := Trabajo.mediaBatch) _ (fun t _ _ => t.add_mediaBatch ..) t

/-- The lines of the proposal that the set-aside products make. -/
def Trabajo.lineasMedia (t : Trabajo) : List Linea :=
  t.mediaBatch.map fun (code, name, qty, fuente) => ⟨code, qty.getD 1, name, fuente, []⟩

theorem paso_lineasMedia (t : Trabajo) (op : Op) :
    (paso true t op).lineasMedia = t.lineasMedia ++ op.leida.toList := by
  cases hl : op.leida with
  | some l =>
    cases op with
    | add code name brand qty fuente =>
      obtain rfl : _ = l := Option.some.inj hl
      simp [paso, Trabajo.lineasMedia]
    | _ => cases hl
  | none =>
    suffices h : (paso true t op).mediaBatch = t.mediaBatch by simp [Trabajo.lineasMedia, h]
    generalize hp : paso true t op = t'
    have hef : Efecto t op t' := hp ▸ paso_efecto true t op
    cases hef with
    | quieto hq => exact hq.mediaBatch
    | aparta brand hop => simp [hop, Op.leida] at hl
    | dice => rfl
    | add name brand fuente al hu hop => exact (Trabajo.add_mediaBatch ..).trans hu.mediaBatch
    | fija name hu hln hop => exact hu.mediaBatch
    | nueva name hu hln hop hq => exact hu.mediaBatch
    | borra name hu hop => exact hu.mediaBatch
    | lineas fuente hu hop hv ht => exact (addLineas_mediaBatch ..).trans hu.mediaBatch
    | cierra hu hop hv ht rs => exact hu.mediaBatch

theorem tras_lineasMedia (ops : List Op) :
    (tras true e g ops).lineasMedia = ops.filterMap Op.leida := by
  induction ops using List.reverseRecOn with
  | nil => rfl
  | append_singleton ops op ih =>
    rw [tras_concat, paso_lineasMedia, ih, List.filterMap_append]
    cases h : op.leida <;> simp [h]

/-! ## The proposals after pass 2 -/

theorem reglaMedia_siNos (t : Trabajo) :
    (reglaMedia t).e.siNos =
      if t.e.siNos = [] then
        if t.lineasMedia = [] then [] else [{ tipo := .media, items := t.lineasMedia }]
      else t.e.siNos := by
  have hb : t.mediaBatch.isEmpty ↔ t.lineasMedia = [] := by
    simp [Trabajo.lineasMedia]
  unfold reglaMedia
  by_cases h : t.mediaBatch.isEmpty
  · rw [if_pos h, if_pos (hb.mp h)]
    split <;> simp_all
  · rw [if_neg h, if_neg (hb.not.mp h)]
    exact t.nuevaSiNo_siNos _ _

theorem regla3_siNos (t : Trabajo) : (regla3 t).e.siNos = t.e.siNos := by
  refine foldl_component (f := fun t : Trabajo => t.e.siNos) _ (fun t r _ => ?_) t
  unfold regla3Una
  dsimp only
  split
  · simp [Estado.siNos, filterMap_quitaConflictos (f := Item.siNo?) (fun _ => rfl), Item.siNo?]
  · rfl

theorem regla11_siNos (t : Trabajo) : (regla11 t).e.siNos = t.e.siNos := by
  unfold regla11
  split
  · rfl
  · next g _ =>
    have hitem (i : Item) : (regla11Item g i).siNo? = i.siNo? := by cases i <;> rfl
    refine (filterMap_map_of_eq hitem _).trans ?_
    refine foldl_component (f := fun t : Trabajo => t.e.siNos) _ (fun t c _ => ?_) t
    unfold regla11Linea
    split <;> rfl

theorem regla7Item_siNo? (hubo : Bool) (ya hs : List Hecho) (i : Item) :
    (regla7Item hubo ya hs i).1.siNo? = i.siNo? := by
  cases i with
  | producto p =>
    simp only [regla7Item]
    split
    · rfl
    · split
      · rfl
      · split <;> rfl
  | revisar texto qty => rfl
  | conflicto c => simp only [regla7Item]; split <;> rfl
  | siNo p =>
    simp only [regla7Item]
    split
    · rfl
    · split <;> rfl

theorem regla7Items_siNos (hubo : Bool) (ya : List Hecho) (items : List Item) (hs : List Hecho) :
    (regla7Items hubo ya hs items).1.filterMap Item.siNo? = items.filterMap Item.siNo? := by
  induction items generalizing hs with
  | nil => rfl
  | cons i items ih =>
    simp only [regla7Items, List.filterMap_cons, regla7Item_siNo?, ih]

theorem agotados_siNos (items : List Item) :
    (agotados items).filterMap Item.siNo? = items.filterMap Item.siNo? := by
  unfold agotados
  refine foldl_component (f := fun is : List Item => is.filterMap Item.siNo?) _ (fun is p _ => ?_) _
  simp [siNos_erase_producto, Item.siNo?]

theorem pase2_siNos (t : Trabajo) : (pase2 t).e.siNos = (reglaMedia t).e.siNos := by
  have hmarca (i : Item) : i.sinMarca.siNo? = i.siNo? := by cases i <;> rfl
  calc (pase2 t).e.siNos
      = (agotados (regla7 (regla11 (regla3 (reglaMedia t)))).e.openItems).filterMap Item.siNo? :=
        filterMap_map_of_eq hmarca _
    _ = (regla7 (regla11 (regla3 (reglaMedia t)))).e.siNos := agotados_siNos _
    _ = (regla11 (regla3 (reglaMedia t))).e.siNos := regla7Items_siNos _ _ _ _
    _ = (reglaMedia t).e.siNos := by rw [regla11_siNos, regla3_siNos]

/-! ## The turn -/

theorem aplicar_siNos_media :
    (aplicar e ops true g).estado.siNos =
      if (tras true e g ops).e.siNos = [] then (propuestaMedia ops).toList
      else (tras true e g ops).e.siNos := by
  rw [aplicar_estado, pase2_siNos, reglaMedia_siNos, tras_lineasMedia]
  unfold propuestaMedia
  split
  · split <;> rfl
  · rfl

theorem cart_kept_iff :
    (∀ xs ys, ops = xs ++ ys → (tras true e g xs).e.cart = e.cart) ↔
      ∀ xs op ys, ops = xs ++ op :: ys → op.escribe true (tras true e g xs).e = false := by
  constructor
  · intro h xs op ys hops
    rw [← paso_cart_iff, ← tras_concat, h xs _ hops, h (xs ++ [op]) ys (by simp [hops])]
  · intro h xs
    induction xs using List.reverseRecOn with
    | nil => exact fun _ _ => rfl
    | append_singleton xs op ih =>
      intro ys hops
      have hops' : ops = xs ++ op :: ys := by simp [hops]
      rw [tras_concat, (paso_cart_iff true _ op).mpr (h xs op ys hops'), ih _ hops']

theorem addLineas_addedNoQty (fuente : Texto) (items : List Linea) (t : Trabajo) :
    (items.foldl (Trabajo.addLinea fuente) t).addedNoQty = t.addedNoQty := by
  refine foldl_component (f := Trabajo.addedNoQty) _ (fun t l _ => ?_) t
  rcases t.add_cases l.code l.name [] (some (orNum (some l.qty) 1)) fuente [] with
    ⟨ln, -, -, h⟩ | ⟨ln, q, -, -, -, h⟩ | ⟨-, h⟩
  all_goals rw [Trabajo.addLinea, h]; rfl

/-- Only a new line can be a line without a number. -/
theorem paso_addedNoQty {fm : Bool} {t : Trabajo} {op : Op}
    (h : (paso fm t op).e.cart = t.e.cart) : (paso fm t op).addedNoQty = t.addedNoQty := by
  generalize hp : paso fm t op = t' at h
  have hef : Efecto t op t' := hp ▸ paso_efecto fm t op
  cases hef with
  | quieto hq => exact hq.addedNoQty
  | aparta => rfl
  | dice => rfl
  | @add u code qty name brand fuente al hu hop =>
    rcases u.add_cases code name brand qty fuente al with
      ⟨ln, -, -, he⟩ | ⟨ln, q, -, -, -, he⟩ | ⟨-, he⟩
    · rw [he]; exact hu.addedNoQty
    · rw [he]; exact hu.addedNoQty
    · rw [he, ← hu.cart] at h
      simp [Trabajo.addNueva] at h
  | fija name hu hln hop => exact hu.addedNoQty
  | nueva name hu hln hop hq => exact hu.addedNoQty
  | borra name hu hop => exact hu.addedNoQty
  | lineas fuente hu hop hv ht => exact (addLineas_addedNoQty ..).trans hu.addedNoQty
  | cierra hu hop hv ht rs => exact hu.addedNoQty

theorem tras_addedNoQty
    (h : ∀ xs ys, ops = xs ++ ys → (tras true e g xs).e.cart = e.cart) :
    (tras true e g ops).addedNoQty = [] := by
  suffices hall : ∀ xs ys, ops = xs ++ ys → (tras true e g xs).addedNoQty = [] from
    hall ops [] (by simp)
  intro xs
  induction xs using List.reverseRecOn with
  | nil => exact fun _ _ => rfl
  | append_singleton xs op ih =>
    intro ys hops
    have hops' : ops = xs ++ op :: ys := by simp [hops]
    have hcart := (h (xs ++ [op]) ys hops).trans (h xs _ hops').symm
    rw [tras_concat] at hcart ⊢
    exact (paso_addedNoQty hcart).trans (ih _ hops')

end Chatlink.Agent
