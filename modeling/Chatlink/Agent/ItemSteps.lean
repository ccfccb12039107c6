import Chatlink.Agent.CartWrites

/-!
# What a turn does to the open items

An operation opens a conflict, a product or a review line; it takes an open item away
only when it picks it, sends it to review or settles it. The step lemmas say so in both
directions, and the lemmas of pass 2 follow an item to the end of the turn.
-/
namespace Chatlink.Agent

open Lists

/-! ## Products sent to review -/

/-- Each product of `ps` leaves the items and comes back as a review line. -/
def revisa (ps : List Producto) (items : List Item) : List Item :=
  ps.foldl (fun is p => is.erase (.producto p) ++ [.revisar p.texto p.qty]) items

theorem mem_revisa {ps : List Producto} {items : List Item} {i : Item} (h : i ∈ revisa ps items) :
    i ∈ items ∨ ∃ p ∈ ps, i = .revisar p.texto p.qty := by
  induction ps generalizing items with
  | nil => exact Or.inl h
  | cons p ps ih =>
    rcases ih h with h | ⟨q, hq, rfl⟩
    · rcases List.mem_append.mp h with h | h
      · exact Or.inl (List.mem_of_mem_erase h)
      · exact Or.inr ⟨p, List.mem_cons_self, List.mem_singleton.mp h⟩
    · exact Or.inr ⟨q, List.mem_cons_of_mem p hq, rfl⟩

theorem mem_revisa_of_mem {items : List Item} {i : Item} (ps : List Producto) (h : i ∈ items) :
    i ∈ revisa ps items ∨
      ∃ p ∈ ps, i = .producto p ∧ Item.revisar p.texto p.qty ∈ revisa ps items := by
  induction ps generalizing items i with
  | nil => exact Or.inl h
  | cons p ps ih =>
    by_cases hi : i = .producto p
    · refine Or.inr ⟨p, List.mem_cons_self, hi, ?_⟩
      have hrev : Item.revisar p.texto p.qty ∈ items.erase (.producto p) ++ [.revisar p.texto p.qty] :=
        List.mem_append_right _ (List.mem_singleton.mpr rfl)
      rcases ih hrev with hrev | ⟨q, -, hq, -⟩
      · exact hrev
      · cases hq
    · rcases ih (List.mem_append_left [.revisar p.texto p.qty] ((List.mem_erase_of_ne hi).mpr h)) with
        h | ⟨q, hq, hiq, hrev⟩
      · exact Or.inl h
      · exact Or.inr ⟨q, List.mem_cons_of_mem p hq, hiq, hrev⟩

theorem revisa_productos (ps : List Producto) (items : List Item) :
    (revisa ps items).filterMap Item.producto? =
      ps.foldl List.erase (items.filterMap Item.producto?) := by
  induction ps generalizing items with
  | nil => rfl
  | cons p ps ih =>
    refine (ih _).trans ?_
    have hrev : [Item.revisar p.texto p.qty].filterMap Item.producto? = [] := rfl
    rw [List.filterMap_append, filterMap_erase_of_some producto?_eq_some, hrev, List.append_nil,
      List.foldl_cons]

theorem foldl_erase_self (ps : List Producto) : ps.foldl List.erase ps = [] := by
  induction ps with
  | nil => rfl
  | cons p ps ih => rw [List.foldl_cons, List.erase_cons_head, ih]

/-- Sending every open product to review leaves none. -/
theorem revisa_todos (items : List Item) :
    (revisa (items.filterMap Item.producto?) items).filterMap Item.producto? = [] :=
  (revisa_productos _ items).trans (foldl_erase_self _)

theorem cierre_openItems (ps : List Producto) (t : Trabajo) :
    (ps.foldl (fun t p => (t.quita (.producto p)).abre (.revisar p.texto p.qty)) t).e.openItems =
      revisa ps t.e.openItems := by
  induction ps generalizing t with
  | nil => rfl
  | cons p ps ih => exact ih _

theorem mandaRevisar_openItems (ps : List Producto) (t : Trabajo) :
    (ps.foldl Trabajo.mandaRevisar t).e.openItems = revisa ps t.e.openItems := by
  induction ps generalizing t with
  | nil => rfl
  | cons p ps ih => exact ih _

/-! ## One product changed -/

theorem mem_cambiaProducto {texto : Texto} {f : Producto → Producto} {items : List Item} {i : Item}
    (h : i ∈ cambiaProducto texto f items) :
    i ∈ items ∨ ∃ p, Item.producto p ∈ items ∧ p.texto = texto ∧ i = .producto (f p) := by
  fun_induction cambiaProducto texto f items with
  | case1 => exact Or.inl h
  | case2 p is hp =>
    rcases List.mem_cons.mp h with rfl | h
    · exact Or.inr ⟨p, List.mem_cons_self, hp, rfl⟩
    · exact Or.inl (List.mem_cons_of_mem _ h)
  | case3 p is hp ih =>
    rcases List.mem_cons.mp h with rfl | h
    · exact Or.inl List.mem_cons_self
    · rcases ih h with h | ⟨q, hq, ht, rfl⟩
      · exact Or.inl (List.mem_cons_of_mem _ h)
      · exact Or.inr ⟨q, List.mem_cons_of_mem _ hq, ht, rfl⟩
  | case4 j is hne ih =>
    rcases List.mem_cons.mp h with rfl | h
    · exact Or.inl List.mem_cons_self
    · rcases ih h with h | ⟨q, hq, ht, rfl⟩
      · exact Or.inl (List.mem_cons_of_mem _ h)
      · exact Or.inr ⟨q, List.mem_cons_of_mem _ hq, ht, rfl⟩

theorem mem_cambiaProducto_of_mem (texto : Texto) (f : Producto → Producto) {items : List Item}
    {i : Item} (h : i ∈ items) :
    i ∈ cambiaProducto texto f items ∨
      ∃ p, i = .producto p ∧ p.texto = texto ∧ Item.producto (f p) ∈ cambiaProducto texto f items := by
  fun_induction cambiaProducto texto f items with
  | case1 => exact absurd h List.not_mem_nil
  | case2 p is hp =>
    rcases List.mem_cons.mp h with rfl | h
    · exact Or.inr ⟨p, rfl, hp, List.mem_cons_self⟩
    · exact Or.inl (List.mem_cons_of_mem _ h)
  | case3 p is hp ih =>
    rcases List.mem_cons.mp h with rfl | h
    · exact Or.inl List.mem_cons_self
    · rcases ih h with h | ⟨q, rfl, ht, hq⟩
      · exact Or.inl (List.mem_cons_of_mem _ h)
      · exact Or.inr ⟨q, rfl, ht, List.mem_cons_of_mem _ hq⟩
  | case4 j is hne ih =>
    rcases List.mem_cons.mp h with rfl | h
    · exact Or.inl List.mem_cons_self
    · rcases ih h with h | ⟨q, rfl, ht, hq⟩
      · exact Or.inl (List.mem_cons_of_mem _ h)
      · exact Or.inr ⟨q, rfl, ht, List.mem_cons_of_mem _ hq⟩

/-! ## Items through an `add` -/

section Add

variable (t : Trabajo) (code name brand : Texto) (qty : Option ℤ) (fuente aliasTexto : Texto)

theorem Trabajo.add_codes_subset :
    t.e.codes ⊆ (t.add code name brand qty fuente aliasTexto).e.codes := by
  intro c hc
  rw [Estado.codes, Trabajo.add_cart]
  cases t.e.linea code with
  | some ln => exact hc
  | none => exact List.map_append ▸ List.mem_append_left _ hc

theorem Trabajo.add_code_mem :
    code ∈ (t.add code name brand qty fuente aliasTexto).e.codes := by
  rw [Estado.codes, Trabajo.add_cart]
  cases hln : t.e.linea code with
  | some ln => exact List.mem_map.mpr ⟨ln, mem_of_linea hln, linea_code hln⟩
  | none => simp

theorem Trabajo.add_abre {i : Item}
    (h : i ∈ (t.add code name brand qty fuente aliasTexto).e.openItems) :
    i ∈ t.e.openItems ∨ ∃ c, i = .conflicto c ∧ c.code = code := by
  rcases t.add_cases code name brand qty fuente aliasTexto with
    ⟨ln, -, -, he⟩ | ⟨ln, q, -, -, -, he⟩ | ⟨-, he⟩
  all_goals rw [he] at h
  · exact Or.inl h
  · rcases List.mem_append.mp h with h | h
    · exact Or.inl (List.mem_of_mem_filter h)
    · exact Or.inr ⟨_, List.mem_singleton.mp h, rfl⟩
  · exact Or.inl h

theorem Trabajo.add_retira {i : Item} (h : i ∈ t.e.openItems) :
    i ∈ (t.add code name brand qty fuente aliasTexto).e.openItems ∨
      ∃ c, i = .conflicto c ∧ c.code = code := by
  rcases t.add_cases code name brand qty fuente aliasTexto with
    ⟨ln, -, -, he⟩ | ⟨ln, q, -, -, -, he⟩ | ⟨-, he⟩
  all_goals rw [he]
  · exact Or.inl h
  · by_cases hc : i.conflictoDe code
    · cases i with
      | conflicto c => exact Or.inr ⟨c, rfl, by simpa [Item.conflictoDe] using hc⟩
      | producto p => cases hc
      | revisar texto q => cases hc
      | siNo v => cases hc
    · exact Or.inl (List.mem_append_left _ (List.mem_filter.mpr ⟨h, by simpa using hc⟩))
  · exact Or.inl h

end Add

/-- A conflict about a line of the cart. -/
def Item.ConflictoEn (codes : List Texto) (i : Item) : Prop :=
  ∃ c, i = .conflicto c ∧ c.code ∈ codes

theorem Item.ConflictoEn.mono {codes codes' : List Texto} (hs : codes ⊆ codes') {i : Item}
    (h : i.ConflictoEn codes) : i.ConflictoEn codes' := by
  obtain ⟨c, rfl, hc⟩ := h
  exact ⟨c, rfl, hs hc⟩

/-- The lines of a proposal only open and replace conflicts about lines of the cart. -/
theorem addLineas_items (fuente : Texto) (items : List Linea) (t : Trabajo) :
    let t' := items.foldl (Trabajo.addLinea fuente) t
    (∀ i ∈ t'.e.openItems, i ∈ t.e.openItems ∨ i.ConflictoEn t'.e.codes) ∧
      ∀ i ∈ t.e.openItems, i ∈ t'.e.openItems ∨ i.ConflictoEn t'.e.codes := by
  refine foldl_keeps (P := fun u : Trabajo =>
    (∀ i ∈ u.e.openItems, i ∈ t.e.openItems ∨ i.ConflictoEn u.e.codes) ∧
      ∀ i ∈ t.e.openItems, i ∈ u.e.openItems ∨ i.ConflictoEn u.e.codes) items ?_
    ⟨fun i hi => Or.inl hi, fun i hi => Or.inl hi⟩
  rintro u l - ⟨hde, ha⟩
  have hsub := u.add_codes_subset l.code l.name [] (some (orNum (some l.qty) 1)) fuente []
  have hself := u.add_code_mem l.code l.name [] (some (orNum (some l.qty) 1)) fuente []
  constructor
  · intro i hi
    rcases u.add_abre _ _ _ _ _ _ hi with hi | ⟨c, rfl, hc⟩
    · exact (hde i hi).imp_right (Item.ConflictoEn.mono hsub)
    · exact Or.inr ⟨c, rfl, hc ▸ hself⟩
  · intro i hi
    rcases ha i hi with hi | hi
    · rcases u.add_retira l.code l.name [] (some (orNum (some l.qty) 1)) fuente [] hi with
        hi | ⟨c, rfl, hc⟩
      · exact Or.inl hi
      · exact Or.inr ⟨c, rfl, hc ▸ hself⟩
    · exact Or.inr (hi.mono hsub)

/-! ## One operation -/

/-- The product an operation asks about, with its quantity. -/
def Op.pregunta? : Op → Option (Texto × Option ℤ)
  | .opciones texto qty _ _ => some (texto, qty)
  | .sinCandidatos texto qty => some (texto, qty)
  | _ => none

/-- The options an operation offers. -/
def Op.ofertas : Op → List Opcion
  | .opciones _ _ ops _ => ops
  | _ => []

/-- Everything an operation can put among the open items. -/
inductive Op.Abre (op : Op) (e e' : Estado) : Item → Prop
  | conflicto {c : Conflicto} (hc : c.code ∈ e'.codes) : Abre op e e' (.conflicto c)
  | nuevo {p : Producto} (hop : op.pregunta? = some (p.texto, p.qty))
      (ho : ∀ o ∈ p.opciones, o ∈ op.ofertas) : Abre op e e' (.producto p)
  | cambia {p p' : Producto} (hp : p ∈ e.productosAbiertos) (ht : p'.texto = p.texto)
      (hq : p'.qty = p.qty ∨ op.pregunta? = some (p'.texto, p'.qty))
      (ho : ∀ o ∈ p'.opciones, o ∈ op.ofertas) : Abre op e e' (.producto p')
  | revisar {p : Producto} (hp : p ∈ e.productosAbiertos) : Abre op e e' (.revisar p.texto p.qty)
  | siNo (v : Propuesta) : Abre op e e' (.siNo v)

/-- Everything an operation can do with an open item other than leave it. -/
inductive Op.Retira (op : Op) (e' : Estado) : Item → Prop
  | elegido {p : Producto} {code name brand fuente : Texto}
      (hop : op = .elige p.texto code name brand fuente) (hc : code ∈ e'.codes) :
      Retira op e' (.producto p)
  | revisado {p : Producto} (h : Item.revisar p.texto p.qty ∈ e'.openItems) :
      Retira op e' (.producto p)
  | cambiado {p p' : Producto} (ht : p'.texto = p.texto) (h : Item.producto p' ∈ e'.openItems) :
      Retira op e' (.producto p)
  | conflicto {c : Conflicto} (hc : c.code ∈ e'.codes) : Retira op e' (.conflicto c)
  | siNo (v : Propuesta) : Retira op e' (.siNo v)

/-- The open items before and after an operation. -/
structure Mueve (op : Op) (e e' : Estado) : Prop where
  abre : ∀ i ∈ e'.openItems, i ∈ e.openItems ∨ op.Abre e e' i
  retira : ∀ i ∈ e.openItems, i ∈ e'.openItems ∨ op.Retira e' i

namespace Mueve

variable {op : Op} {e e' : Estado}

theorem of_eq (h : e'.openItems = e.openItems) : Mueve op e e' :=
  ⟨fun _ hi => Or.inl (h ▸ hi), fun _ hi => Or.inl (h ▸ hi)⟩

theorem of_siNo {v : Propuesta} (h : e'.openItems = e.openItems ++ [.siNo v]) :
    Mueve op e e' := by
  refine ⟨fun i hi => ?_, fun i hi => Or.inl (h ▸ List.mem_append_left _ hi)⟩
  rw [h] at hi
  rcases List.mem_append.mp hi with hi | hi
  · exact Or.inl hi
  · obtain rfl := List.mem_singleton.mp hi
    exact Or.inr (.siNo v)

/-- The open products become review lines. -/
theorem of_revisa (h : e'.openItems = revisa e.productosAbiertos e.openItems) :
    Mueve op e e' := by
  refine ⟨fun i hi => ?_, fun i hi => ?_⟩
  · rw [h] at hi
    rcases mem_revisa hi with hi | ⟨p, hp, rfl⟩
    · exact Or.inl hi
    · exact Or.inr (.revisar hp)
  · rcases mem_revisa_of_mem e.productosAbiertos hi with hi | ⟨p, hp, rfl, hrev⟩
    · exact Or.inl (h ▸ hi)
    · exact Or.inr (.revisado (h ▸ hrev))

/-- An answer takes the proposal `v` away before anything else. -/
theorem quita_siNo {v : Propuesta} (h : Mueve op { e with openItems := e.openItems.erase (.siNo v) } e') :
    Mueve op e e' := by
  have hprod : ({ e with openItems := e.openItems.erase (.siNo v) } : Estado).productosAbiertos =
      e.productosAbiertos := filterMap_erase_of_none rfl e.openItems
  refine ⟨fun i hi => ?_, fun i hi => ?_⟩
  · rcases h.abre i hi with hi | hi
    · exact Or.inl (List.mem_of_mem_erase hi)
    · right
      cases hi with
      | conflicto hc => exact .conflicto hc
      | nuevo hop ho => exact .nuevo hop ho
      | cambia hp ht hq ho => exact .cambia (hprod ▸ hp) ht hq ho
      | revisar hp => exact .revisar (hprod ▸ hp)
      | siNo w => exact .siNo w
  · by_cases hv : i = .siNo v
    · subst hv
      exact Or.inr (.siNo v)
    · exact h.retira i ((List.mem_erase_of_ne hv).mpr hi)

end Mueve

theorem nuevaSiNo_mueve (t : Trabajo) (op : Op) (v : Propuesta) (titulo : Titulo) :
    Mueve op t.e (t.nuevaSiNo v titulo).1.e := by
  rcases t.nuevaSiNo_cases v titulo with ⟨w, -, h⟩ | ⟨-, h⟩
  all_goals rw [h]
  · exact .of_eq rfl
  · exact .of_siNo rfl

theorem setQty_mueve (t : Trabajo) (op : Op) (code name : Texto) (modo : Modo)
    (valor : Option ℤ) : Mueve op t.e (t.setQty code name modo valor).e := by
  rcases t.setQty_cases code name modo valor with
    ⟨-, h⟩ | ⟨ln, -, -, h⟩ | ⟨ln, w, -, -, h⟩ | ⟨ln, -, -, h⟩ | ⟨ln, q, -, h⟩
  all_goals rw [h]
  · exact .of_eq rfl
  · exact .of_eq rfl
  · exact .of_eq rfl
  · exact .of_siNo rfl
  · exact .of_eq rfl

theorem ejecuta_mueve (t : Trabajo) (v : Propuesta) : Mueve .confirmar t.e (ejecuta t v).e := by
  have hlineas (fuente : Texto) :
      Mueve .confirmar t.e (v.items.foldl (Trabajo.addLinea fuente) t).e := by
    obtain ⟨hde, ha⟩ := addLineas_items fuente v.items t
    refine ⟨fun i hi => (hde i hi).imp_right ?_, fun i hi => (ha i hi).imp_right ?_⟩
    · rintro ⟨c, rfl, hc⟩
      exact .conflicto hc
    · rintro ⟨c, rfl, hc⟩
      exact .conflicto hc
  unfold ejecuta
  cases v.tipo with
  | cierre => exact .of_revisa (cierre_openItems _ t)
  | baja =>
    dsimp only
    split
    · exact .of_eq rfl
    · exact .of_eq rfl
  | media => exact hlineas "media"
  | repetir => exact hlineas "repetir"

/-- Asking about a product that is open or has just been opened. -/
theorem pregunta_mueve {op : Op} {e e₁ e' : Estado} {texto : Texto} {qty : Option ℤ}
    {f : Producto → Producto} (hop : op.pregunta? = some (texto, qty))
    (hf : ∀ p, (f p).texto = p.texto ∧ ((f p).qty = p.qty ∨ (f p).qty = qty) ∧
      ∀ o ∈ (f p).opciones, o ∈ op.ofertas)
    (he' : e'.openItems = cambiaProducto texto f e₁.openItems)
    (he₁ : e₁.openItems = e.openItems ∨
      e₁.openItems = e.openItems ++ [.producto { texto := texto, qty := qty, nuevo := true }]) :
    Mueve op e e' := by
  have hsub : ∀ i ∈ e.openItems, i ∈ e₁.openItems := by
    intro i hi
    rcases he₁ with h | h
    · exact h ▸ hi
    · exact h ▸ List.mem_append_left _ hi
  have hnew : ∀ i ∈ e₁.openItems, i ∈ e.openItems ∨
      i = .producto { texto := texto, qty := qty, nuevo := true } := by
    intro i hi
    rcases he₁ with h | h
    · exact Or.inl (h ▸ hi)
    · rw [h] at hi
      exact (List.mem_append.mp hi).imp_right List.mem_singleton.mp
  refine ⟨fun i hi => ?_, fun i hi => ?_⟩
  · rw [he'] at hi
    rcases mem_cambiaProducto hi with hi | ⟨p, hp, ht, rfl⟩
    · rcases hnew i hi with hi | rfl
      · exact Or.inl hi
      · exact Or.inr (.nuevo hop (by simp))
    · obtain ⟨hft, hfq, hfo⟩ := hf p
      right
      rcases hnew _ hp with hp | hp
      · refine .cambia (List.mem_filterMap.mpr ⟨_, hp, rfl⟩) hft ?_ hfo
        refine hfq.imp_right fun hq => ?_
        rw [hop, hft, ht, hq]
      · obtain rfl := Item.producto.inj hp
        refine .nuevo ?_ hfo
        rw [hop, hft]
        rcases hfq with hq | hq
        all_goals rw [hq]
  · rcases mem_cambiaProducto_of_mem texto f (hsub i hi) with hi | ⟨p, rfl, -, hp⟩
    · exact Or.inl (he' ▸ hi)
    · exact Or.inr (.cambiado (hf p).1 (he' ▸ hp))

theorem add_mueve {t u : Trabajo} {op : Op} (code name brand : Texto) (qty : Option ℤ)
    (fuente aliasTexto : Texto) (hsub : ∀ i ∈ u.e.openItems, i ∈ t.e.openItems)
    (hout : ∀ i ∈ t.e.openItems, i ∈ u.e.openItems ∨
      ∃ p, i = .producto p ∧ ∃ name brand fuente, op = .elige p.texto code name brand fuente) :
    Mueve op t.e (u.add code name brand qty fuente aliasTexto).e := by
  have hself := u.add_code_mem code name brand qty fuente aliasTexto
  refine ⟨fun i hi => ?_, fun i hi => ?_⟩
  · rcases u.add_abre _ _ _ _ _ _ hi with hi | ⟨c, rfl, hc⟩
    · exact Or.inl (hsub i hi)
    · exact Or.inr (.conflicto (hc ▸ hself))
  · rcases hout i hi with hi | ⟨p, rfl, n, b, f, hop⟩
    · rcases u.add_retira code name brand qty fuente aliasTexto hi with hi | ⟨c, rfl, hc⟩
      · exact Or.inl hi
      · exact Or.inr (.conflicto (hc ▸ hself))
    · exact Or.inr (.elegido hop hself)

/-- The conflict that a chosen quantity settles is about a line of the cart. -/
theorem eligeQty_mueve {op : Op} {e e' : Estado} {c : Conflicto}
    (h : e'.openItems = e.openItems.erase (.conflicto c)) (hc : c.code ∈ e'.codes) :
    Mueve op e e' := by
  refine ⟨fun i hi => Or.inl ?_, fun i hi => ?_⟩
  · rw [h] at hi
    exact List.mem_of_mem_erase hi
  · by_cases hi' : i = .conflicto c
    · subst hi'
      exact Or.inr (.conflicto hc)
    · exact Or.inl (h ▸ (List.mem_erase_of_ne hi').mpr hi)

/-- The step lemma of the open items. -/
theorem paso_mueve (fm : Bool) (t : Trabajo) (op : Op) : Mueve op t.e (paso fm t op).e := by
  cases op with
  | add code name brand qty fuente =>
    cases fm with
    | true => exact .of_eq rfl
    | false => exact add_mueve _ _ _ _ _ _ (fun _ hi => hi) fun _ hi => Or.inl hi
  | modificar code name modo valor b vn =>
    by_cases hm : modo = .eliminar
    · simp only [paso, hm, if_true]
      split
      · exact .of_eq rfl
      · split
        · exact .of_eq rfl
        · exact .of_eq rfl
    · simp only [paso, hm, if_false]
      exact setQty_mueve t _ code name modo valor
  | opciones texto qty ops ind =>
    -- the question keeps the text of its product and may give it a quantity
    let f : Producto → Producto := fun p =>
      { p with qty := qty.orElse fun _ => p.qty
               opciones := ops.filter fun o => !p.rechazados.contains o.code }
    have hf (p : Producto) : (f p).texto = p.texto ∧ ((f p).qty = p.qty ∨ (f p).qty = qty) ∧
        ∀ o ∈ (f p).opciones, o ∈ (Op.opciones texto qty ops ind).ofertas := by
      refine ⟨rfl, ?_, fun o ho => List.mem_of_mem_filter ho⟩
      cases qty with
      | none => exact Or.inl rfl
      | some q => exact Or.inr rfl
    simp only [paso]
    split
    · split
      · exact pregunta_mueve rfl hf rfl (Or.inl rfl)
      · exact pregunta_mueve rfl hf rfl (Or.inr rfl)
    · split
      · exact pregunta_mueve rfl hf rfl (Or.inl rfl)
      · exact pregunta_mueve rfl hf rfl (Or.inr rfl)
  | sinCandidatos texto qty =>
    simp only [paso]
    split
    · exact .of_eq rfl
    · refine ⟨fun i hi => ?_, fun i hi => Or.inl (List.mem_append_left _ hi)⟩
      rcases List.mem_append.mp hi with hi | hi
      · exact Or.inl hi
      · obtain rfl := List.mem_singleton.mp hi
        exact Or.inr (.nuevo rfl (by simp))
  | codigoNoExiste code => exact .of_eq rfl
  | rechazo objetivo =>
    simp only [paso]
    split
    · exact .of_eq rfl
    · refine ⟨fun i hi => ?_, fun i hi => ?_⟩
      · rcases mem_cambiaProducto hi with hi | ⟨p, hp, -, rfl⟩
        · exact Or.inl hi
        · exact Or.inr (.cambia (List.mem_filterMap.mpr ⟨_, hp, rfl⟩) rfl (Or.inl rfl) (by simp))
      · rcases mem_cambiaProducto_of_mem _ _ hi with hi | ⟨p, rfl, -, hp⟩
        · exact Or.inl hi
        · refine Or.inr (.cambiado ?_ hp)
          rfl
  | elige itemTexto code name brand fuente =>
    simp only [paso]
    split
    · next p hp =>
      have ht : p.texto = itemTexto := by simpa using List.find?_some hp
      refine add_mueve _ _ _ _ _ _ (fun i hi => List.mem_of_mem_erase hi) fun i hi => ?_
      by_cases hi' : i = .producto p
      · exact Or.inr ⟨p, hi', name, brand, fuente, by rw [ht]⟩
      · exact Or.inl ((List.mem_erase_of_ne hi').mpr hi)
    · exact add_mueve _ _ _ _ _ _ (fun _ hi => hi) fun _ hi => Or.inl hi
  | eligeQty code valor =>
    simp only [paso]
    split
    · exact .of_eq rfl
    · next c hc =>
      have hcode : c.code = code := by simpa using List.find?_some hc
      split
      · split
        · refine eligeQty_mueve (c := c) rfl ?_
          simp [Trabajo.enMarcha, Trabajo.emit, Trabajo.conEstado, Estado.codes, hcode]
        · next ln hln =>
          refine eligeQty_mueve (c := c) rfl ?_
          have hmem : c.code ∈ t.e.codes :=
            List.mem_map.mpr ⟨ln, mem_of_linea hln, (linea_code hln).trans hcode.symm⟩
          show c.code ∈ (ponQty code valor t.e.cart).map Linea.code
          rw [ponQty_codes]
          exact hmem
      · exact .of_eq rfl
  | referenciaAmbigua texto candidatas => exact .of_eq rfl
  | cantidadGlobal valor =>
    simp only [paso]
    split
    · split
      · exact .of_eq rfl
      · exact .of_eq rfl
    · exact .of_eq rfl
  | repetirUltimo qo =>
    simp only [paso]
    split
    · exact .of_eq rfl
    · exact nuevaSiNo_mueve t _ _ _
  | cerrar =>
    simp only [paso]
    split
    · exact .of_eq rfl
    · exact nuevaSiNo_mueve t _ _ _
  | confirmar =>
    simp only [paso]
    split
    · exact .of_eq rfl
    · next v hv => exact .quita_siNo (ejecuta_mueve (t.quita (.siNo v)) v)
  | negar =>
    simp only [paso]
    split
    · exact .of_eq rfl
    · next v hv => exact .quita_siNo (.of_eq rfl)
  | otro subtipo =>
    cases subtipo with
    | noSabe =>
      simp only [paso, pasoOtro]
      split
      · exact .of_eq rfl
      · exact .of_revisa (mandaRevisar_openItems _ t)
    | _ => exact .of_eq rfl

/-! ## Pass 2 -/

/-- What the rules of pass 2 make of an item; `g` is the global quantity. -/
inductive Item.Sigue (g : Option ℤ) : Item → Item → Prop
  | producto {p p' : Producto} (ht : p'.texto = p.texto) (ho : p'.opciones = p.opciones)
      (hq : p'.qty = p.qty ∨ ∃ v, g = some v ∧ p'.qty = some v) :
      Sigue g (.producto p) (.producto p')
  | agotado {p : Producto} {q : Option ℤ} (hq : q = p.qty ∨ ∃ v, g = some v ∧ q = some v) :
      Sigue g (.producto p) (.revisar p.texto q)
  | igual (i : Item) : Sigue g i i

theorem Item.Sigue.trans {g : Option ℤ} {i j k : Item} (h : i.Sigue g j) (h' : j.Sigue g k) :
    i.Sigue g k := by
  cases h with
  | igual => exact h'
  | agotado hq =>
    cases h' with
    | igual => exact .agotado hq
  | @producto p p' ht ho hq =>
    cases h' with
    | igual => exact .producto ht ho hq
    | producto ht' ho' hq' =>
      refine .producto (ht'.trans ht) (ho'.trans ho) ?_
      rcases hq' with hq' | hq'
      · exact hq' ▸ hq
      · exact Or.inr hq'
    | @agotado _ q hq' =>
      have hqq : q = p.qty ∨ ∃ v, g = some v ∧ q = some v := by
        rcases hq' with hq' | hq'
        · exact hq' ▸ hq
        · exact Or.inr hq'
      exact ht ▸ .agotado hqq

/-- Every item has a successor, and every item after has a predecessor. -/
structure Prosigue (g : Option ℤ) (is is' : List Item) : Prop where
  de : ∀ i' ∈ is', ∃ i ∈ is, Item.Sigue g i i'
  a : ∀ i ∈ is, ∃ i' ∈ is', Item.Sigue g i i'

namespace Prosigue

variable {g : Option ℤ} {is is' is'' : List Item}

theorem refl (g : Option ℤ) (is : List Item) : Prosigue g is is :=
  ⟨fun i hi => ⟨i, hi, .igual i⟩, fun i hi => ⟨i, hi, .igual i⟩⟩

theorem trans (h : Prosigue g is is') (h' : Prosigue g is' is'') : Prosigue g is is'' := by
  constructor
  · intro k hk
    obtain ⟨j, hj, hjk⟩ := h'.de k hk
    obtain ⟨i, hi, hij⟩ := h.de j hj
    exact ⟨i, hi, hij.trans hjk⟩
  · intro i hi
    obtain ⟨j, hj, hij⟩ := h.a i hi
    obtain ⟨k, hk, hjk⟩ := h'.a j hj
    exact ⟨k, hk, hij.trans hjk⟩

theorem map {f : Item → Item} (hf : ∀ i, Item.Sigue g i (f i)) (is : List Item) :
    Prosigue g is (is.map f) := by
  constructor
  · intro i' hi'
    obtain ⟨i, hi, rfl⟩ := List.mem_map.mp hi'
    exact ⟨i, hi, hf i⟩
  · intro i hi
    exact ⟨f i, List.mem_map.mpr ⟨i, hi, rfl⟩, hf i⟩

theorem cons {i i' : Item} (hi : Item.Sigue g i i') (h : Prosigue g is is') :
    Prosigue g (i :: is) (i' :: is') := by
  constructor
  · intro j' hj'
    rcases List.mem_cons.mp hj' with rfl | hj'
    · exact ⟨i, List.mem_cons_self, hi⟩
    · obtain ⟨j, hj, hs⟩ := h.de j' hj'
      exact ⟨j, List.mem_cons_of_mem i hj, hs⟩
  · intro j hj
    rcases List.mem_cons.mp hj with rfl | hj
    · exact ⟨i', List.mem_cons_self, hi⟩
    · obtain ⟨j', hj', hs⟩ := h.a j hj
      exact ⟨j', List.mem_cons_of_mem i' hj', hs⟩

end Prosigue

theorem regla11_openItems (t : Trabajo) :
    (regla11 t).e.openItems =
      match t.cantidadGlobal with
      | none => t.e.openItems
      | some g => t.e.openItems.map (regla11Item g) := by
  unfold regla11
  cases t.cantidadGlobal with
  | none => rfl
  | some g =>
    have hlines : (t.addedNoQty.foldl (regla11Linea g) t).e.openItems = t.e.openItems := by
      refine foldl_component (f := fun t : Trabajo => t.e.openItems) _ (fun t c _ => ?_) t
      unfold regla11Linea
      split <;> rfl
    exact congrArg (List.map (regla11Item g)) hlines

theorem regla11_prosigue (t : Trabajo) :
    Prosigue t.cantidadGlobal t.e.openItems (regla11 t).e.openItems := by
  rw [regla11_openItems]
  cases t.cantidadGlobal with
  | none => exact .refl _ _
  | some g =>
    apply Prosigue.map
    intro i
    cases i with
    | producto p =>
      refine .producto rfl rfl ?_
      cases hq : p.qty with
      | none => exact Or.inr ⟨g, rfl, rfl⟩
      | some q => exact Or.inl rfl
    | revisar texto qty => exact .igual _
    | conflicto c => exact .igual _
    | siNo v => exact .igual _

theorem regla7Item_sigue (g : Option ℤ) (hubo : Bool) (ya hs : List Hecho) (i : Item) :
    i.Sigue g (regla7Item hubo ya hs i).1 := by
  cases i with
  | producto p =>
    simp only [regla7Item]
    split
    · exact .producto rfl rfl (Or.inl rfl)
    · split
      · exact .producto rfl rfl (Or.inl rfl)
      · split <;> exact .producto rfl rfl (Or.inl rfl)
  | revisar texto qty => exact .igual _
  | conflicto c => simp only [regla7Item]; split <;> exact .igual _
  | siNo v =>
    simp only [regla7Item]
    split
    · exact .igual _
    · split <;> exact .igual _

theorem regla7Items_prosigue (g : Option ℤ) (hubo : Bool) (ya : List Hecho) (items : List Item)
    (hs : List Hecho) : Prosigue g items (regla7Items hubo ya hs items).1 := by
  induction items generalizing hs with
  | nil => exact .refl g []
  | cons i items ih => exact .cons (regla7Item_sigue g hubo ya hs i) (ih _)

theorem agotados_prosigue (g : Option ℤ) (items : List Item) : Prosigue g items (agotados items) := by
  have heq : agotados items =
      revisa ((items.filterMap Item.producto?).filter Producto.revisar) items := rfl
  rw [heq]
  constructor
  · intro i hi
    rcases mem_revisa hi with hi | ⟨p, hp, rfl⟩
    · exact ⟨i, hi, .igual i⟩
    · obtain ⟨j, hj, hjp⟩ := List.mem_filterMap.mp (List.mem_of_mem_filter hp)
      obtain rfl := (producto?_eq_some j p).mp hjp
      exact ⟨_, hj, .agotado (Or.inl rfl)⟩
  · intro i hi
    rcases mem_revisa_of_mem ((items.filterMap Item.producto?).filter Producto.revisar) hi with
      hi | ⟨p, -, rfl, hrev⟩
    · exact ⟨i, hi, .igual i⟩
    · exact ⟨_, hrev, .agotado (Or.inl rfl)⟩

theorem regla7_prosigue (g : Option ℤ) (t : Trabajo) :
    Prosigue g t.e.openItems (regla7 t).e.openItems := regla7Items_prosigue g _ _ _ _

theorem limpia_prosigue (g : Option ℤ) (t : Trabajo) :
    Prosigue g t.e.openItems (limpia t).e.openItems := by
  refine (agotados_prosigue g _).trans (.map ?_ _)
  intro i
  cases i with
  | producto p => exact .producto rfl rfl (Or.inl rfl)
  | revisar texto qty => exact .igual _
  | conflicto c => exact .igual _
  | siNo v => exact .igual _

/-- The rules after rule 3 follow every item. -/
theorem pase2_prosigue (t : Trabajo) :
    Prosigue t.cantidadGlobal (regla3 (reglaMedia t)).e.openItems (pase2 t).e.openItems := by
  have hg : (regla3 (reglaMedia t)).cantidadGlobal = t.cantidadGlobal := by
    rw [regla3_cantidadGlobal, (reglaMedia_frame t).2.2]
  have h11 := regla11_prosigue (regla3 (reglaMedia t))
  rw [hg] at h11
  exact h11.trans ((regla7_prosigue _ _).trans (limpia_prosigue _ _))

theorem reglaMedia_openItems (t : Trabajo) :
    (reglaMedia t).e.openItems = t.e.openItems ∨
      ∃ v, (reglaMedia t).e.openItems = t.e.openItems ++ [.siNo v] := by
  unfold reglaMedia
  split
  · exact Or.inl rfl
  · dsimp only
    rcases t.nuevaSiNo_cases _ .media with ⟨v, -, he⟩ | ⟨-, he⟩ <;> rw [he]
    · exact Or.inl rfl
    · exact Or.inr ⟨_, rfl⟩

/-- Rule 3 takes conflicts away and opens others. -/
theorem regla3_items (t : Trabajo) :
    (∀ i ∈ (regla3 t).e.openItems, i ∈ t.e.openItems ∨ ∃ c, i = .conflicto c) ∧
      ∀ i ∈ t.e.openItems, i ∈ (regla3 t).e.openItems ∨ ∃ c, i = .conflicto c := by
  refine foldl_keeps (P := fun u : Trabajo =>
    (∀ i ∈ u.e.openItems, i ∈ t.e.openItems ∨ ∃ c, i = .conflicto c) ∧
      ∀ i ∈ t.e.openItems, i ∈ u.e.openItems ∨ ∃ c, i = .conflicto c) _ ?_
    ⟨fun i hi => Or.inl hi, fun i hi => Or.inl hi⟩
  rintro u r - ⟨hde, ha⟩
  unfold regla3Una
  dsimp only
  split
  · constructor
    · intro i hi
      rcases List.mem_append.mp hi with hi | hi
      · exact hde i (List.mem_of_mem_filter hi)
      · exact Or.inr ⟨_, List.mem_singleton.mp hi⟩
    · intro i hi
      rcases ha i hi with hi | hi
      · by_cases hc : i.conflictoDe r.1
        · cases i with
          | conflicto c => exact Or.inr ⟨c, rfl⟩
          | producto p => cases hc
          | revisar texto q => cases hc
          | siNo v => cases hc
        · exact Or.inl (List.mem_append_left _ (List.mem_filter.mpr ⟨hi, by simpa using hc⟩))
      · exact Or.inr hi
  · exact ⟨hde, ha⟩

/-- Where an item after pass 2 comes from. -/
theorem pase2_abre {t : Trabajo} {i' : Item} (h : i' ∈ (pase2 t).e.openItems) :
    (∃ i ∈ t.e.openItems, i.Sigue t.cantidadGlobal i') ∨ (∃ v, i' = .siNo v) ∨
      ∃ c, i' = .conflicto c := by
  obtain ⟨i, hi, hs⟩ := (pase2_prosigue t).de i' h
  rcases (regla3_items _).1 i hi with hi | ⟨c, rfl⟩
  · rcases reglaMedia_openItems t with hm | ⟨v, hm⟩
    all_goals rw [hm] at hi
    · exact Or.inl ⟨i, hi, hs⟩
    · rcases List.mem_append.mp hi with hi | hi
      · exact Or.inl ⟨i, hi, hs⟩
      · obtain rfl := List.mem_singleton.mp hi
        cases hs
        exact Or.inr (Or.inl ⟨v, rfl⟩)
  · cases hs
    exact Or.inr (Or.inr ⟨c, rfl⟩)

/-- What becomes of an item in pass 2. -/
theorem pase2_retira {t : Trabajo} {i : Item} (h : i ∈ t.e.openItems) :
    (∃ i' ∈ (pase2 t).e.openItems, i.Sigue t.cantidadGlobal i') ∨ ∃ c, i = .conflicto c := by
  have hm : i ∈ (reglaMedia t).e.openItems := by
    rcases reglaMedia_openItems t with hm | ⟨v, hm⟩
    · exact hm ▸ h
    · exact hm ▸ List.mem_append_left _ h
  exact ((regla3_items _).2 i hm).imp_left ((pase2_prosigue t).a i)

end Chatlink.Agent
