import Chatlink.Agent.Additions
import Chatlink.Agent.CartForm
import Chatlink.Agent.Doubts

/-!
# Turns with media

A product read from a photo, an audio or a document is to stand in the proposal of its turn and
nowhere else: the turn writes no line, asks about no product and disputes no quantity, and in the
sessions that go on from it the product comes to the cart by the confirmation of that proposal.
The reducer diverts only `add`. A pick, a settled conflict, a change of quantity or a confirmation
still writes the cart, and a product with several candidates, or with none, is opened as in any
other turn, for a later pick to settle. The rule holds exactly when the turn takes none of those
branches.
-/
namespace Chatlink.Agent

open Lists Transition

variable {e : Estado} {g : Option ℤ} {ops : List Op} {fm : Bool} {t : Trabajo} {op : Op}

/-! ## What the client is asked -/

/-- The client is asked about the product `texto`, and the option `o` is offered, if one is given. -/
def Estado.ofrece (e : Estado) (texto : Texto) (o : Option Opcion) : Prop :=
  ∃ p ∈ e.productosAbiertos, p.texto = texto ∧ ∀ x ∈ o, x ∈ p.opciones

/-- The operation asks about a product or offers an option that was not there, or it disputes a
quantity of a line. -/
def Op.Consulta (e : Estado) : Op → Prop
  | .opciones texto _ ops _ =>
    match e.productosAbiertos.find? fun p => p.texto = texto with
    | none => True
    | some p => ∃ o ∈ ops, o.code ∉ p.rechazados ∧ ¬ e.ofrece texto (some o)
  | .sinCandidatos texto _ => e.productosAbiertos.find? (fun p => p.texto = texto) = none
  | .elige texto code name _ _ => ∃ ln q, e.linea code = some ln ∧
      (e.productosAbiertos.find? fun p => p.texto = texto).bind Producto.qty = some q ∧ q ≠ ln.qty ∧
      Conflicto.mk code (Texto.orElse ln.name name) (sortedSet [q, ln.qty, q + ln.qty]) ∉ e.conflictos
  | _ => False

theorem ofrece_iff {texto : Texto} {o : Option Opcion} : e.ofrece texto o ↔
    ∃ p, Item.producto p ∈ e.openItems ∧ p.texto = texto ∧ ∀ x ∈ o, x ∈ p.opciones := by
  simp only [Estado.ofrece, mem_productosAbiertos]

/-- Only the first product with the text is changed. -/
theorem mem_cambiaProducto_first {texto : Texto} {f : Producto → Producto} {items : List Item}
    {i : Item} (h : i ∈ cambiaProducto texto f items) : i ∈ items ∨
      ∃ p, (items.filterMap Item.producto?).find? (fun p => p.texto = texto) = some p ∧
        i = .producto (f p) := by
  fun_induction cambiaProducto texto f items with
  | case1 => exact .inl h
  | case2 p is hp =>
    rcases List.mem_cons.mp h with rfl | h
    · exact .inr ⟨p, by simp [Item.producto?, hp], rfl⟩
    · exact .inl (List.mem_cons_of_mem _ h)
  | case3 p is hp ih =>
    rcases List.mem_cons.mp h with rfl | h
    · exact .inl List.mem_cons_self
    · refine (ih h).imp (List.mem_cons_of_mem _) ?_
      rintro ⟨q, hq, rfl⟩
      exact ⟨q, by simp [Item.producto?, hp, hq], rfl⟩
  | case4 j is hne ih =>
    have hnone : j.producto? = none := by
      cases j with
      | producto p => exact absurd rfl (hne p)
      | revisar texto qty => rfl
      | conflicto c => rfl
      | siNo v => rfl
    rcases List.mem_cons.mp h with rfl | h
    · exact .inl List.mem_cons_self
    · refine (ih h).imp (List.mem_cons_of_mem _) ?_
      rintro ⟨q, hq, rfl⟩
      exact ⟨q, by rw [List.filterMap_cons_none hnone]; exact hq, rfl⟩

/-- An operation that names no product opens none and offers nothing. -/
theorem ofrece_of_paso (hop : op.pregunta? = none) {texto : Texto} {o : Option Opcion}
    (h : (paso fm t op).e.ofrece texto o) : t.e.ofrece texto o := by
  have hofertas : op.ofertas = [] := by
    cases op with
    | opciones texto qty ops ind => cases hop
    | _ => rfl
  obtain ⟨p', hp', ht, ho⟩ := ofrece_iff.mp h
  rcases (paso_mueve fm t op).abre _ hp' with hp | hp
  · exact ofrece_iff.mpr ⟨p', hp, ht, ho⟩
  · cases hp with
    | nuevo hq hx =>
      rw [hop] at hq
      cases hq
    | @cambia p _ hmem htext hq hx =>
      rw [hofertas] at hx
      refine ⟨p, hmem, htext.symm.trans ht, fun x hxo => ?_⟩
      exact absurd (hx x (ho x hxo)) List.not_mem_nil

/-- An operation that requests no line disputes no quantity. -/
theorem conflictos_of_paso (hop : op.pedidas fm t.e = []) :
    (paso fm t op).e.conflictos ⊆ t.e.conflictos := by
  intro c hc
  have hedits := paso_retocado (K := fun _ => False) fm t op ?_
  · exact mem_conflictos.mpr ((hedits.conflictos (mem_conflictos.mp hc)).resolve_right id)
  · rintro d ⟨q, k, -, hreq, -⟩
    rw [hop] at hreq
    exact List.not_mem_nil hreq

theorem opciones_ofrece_iff (texto : Texto) (qty : Option ℤ) (ops : List Opcion) (ind : Bool) :
    (∀ texto' o, (paso fm t (.opciones texto qty ops ind)).e.ofrece texto' o → t.e.ofrece texto' o) ↔
      ¬ (Op.opciones texto qty ops ind).Consulta t.e := by
  obtain ⟨p', htext, hmem, hpaso⟩ := paso_opciones fm t texto qty ops ind
  have hitems : (paso fm t (.opciones texto qty ops ind)).e.openItems =
      cambiaProducto texto (conOpciones qty ops) (t.conProducto texto qty).e.openItems := by
    rw [hpaso]
    rfl
  rcases conProducto_cases t texto qty with ⟨p, hp, hcon⟩ | ⟨hnone, -⟩
  · rw [hcon] at hitems
    have hpt : p.texto = texto := by simpa using List.find?_some hp
    have hiff : (Op.opciones texto qty ops ind).Consulta t.e ↔
        ∃ o ∈ ops, o.code ∉ p.rechazados ∧ ¬ t.e.ofrece texto (some o) := by
      simp only [Op.Consulta, hp]
    rw [hiff]
    constructor
    · rintro h ⟨o, ho, hrej, hno⟩
      refine hno (h texto (some o) (ofrece_iff.mpr ⟨conOpciones qty ops p, ?_, hpt, ?_⟩))
      · have hfind := find?_cambiaProducto texto (f := conOpciones qty ops) (fun _ => rfl) t.e.openItems
        rw [← Estado.productosAbiertos, hp] at hfind
        obtain ⟨i, hi, hip⟩ := List.mem_filterMap.mp (List.mem_of_find?_eq_some hfind)
        obtain rfl := (producto?_eq_some i _).mp hip
        rw [hitems]
        exact hi
      · intro x hx
        obtain rfl : o = x := Option.some.inj hx
        exact List.mem_filter.mpr ⟨ho, by simpa using hrej⟩
    · intro h texto' o hof
      obtain ⟨q, hq, hqt, ho⟩ := ofrece_iff.mp hof
      rw [hitems] at hq
      rcases mem_cambiaProducto_first hq with hq | ⟨r, hr, hqr⟩
      · exact ofrece_iff.mpr ⟨q, hq, hqt, ho⟩
      · -- the product asked about is the one that was found, with the options of the operation
        obtain rfl : p = r := Option.some.inj (hp.symm.trans hr)
        obtain rfl := Item.producto.inj hqr
        obtain rfl : p.texto = texto' := hqt
        cases o with
        | none => exact ⟨p, List.mem_of_find?_eq_some hp, rfl, by simp⟩
        | some x =>
          obtain ⟨hx, hrej⟩ := List.mem_filter.mp (ho x rfl)
          by_contra hno
          exact h ⟨x, hx, by simpa using hrej, hpt ▸ hno⟩
  · refine iff_of_false (fun h => ?_) ?_
    · obtain ⟨p, hp, hpt, -⟩ := h texto none
        (ofrece_iff.mpr ⟨p', hitems ▸ hmem, htext, by simp⟩)
      have hne := List.find?_eq_none.mp hnone p hp
      exact absurd hpt (by simpa using hne)
    · simp only [Op.Consulta, hnone]
      exact fun h => h trivial

theorem sinCandidatos_ofrece_iff (texto : Texto) (qty : Option ℤ) :
    (∀ texto' o, (paso fm t (.sinCandidatos texto qty)).e.ofrece texto' o → t.e.ofrece texto' o) ↔
      ¬ (Op.sinCandidatos texto qty).Consulta t.e := by
  have hitems : (paso fm t (.sinCandidatos texto qty)).e = (t.conProducto texto qty).e := rfl
  rw [hitems]
  rcases conProducto_cases t texto qty with ⟨p, hp, hcon⟩ | ⟨hnone, hcon⟩
  · rw [hcon]
    simp only [Op.Consulta, hp]
    simp
  · rw [hcon]
    refine iff_of_false (fun h => ?_) (not_not_intro hnone)
    obtain ⟨p, hp, hpt, -⟩ := h texto none (ofrece_iff.mpr
      ⟨{ texto := texto, qty := qty, nuevo := true }, by simp, rfl, by simp⟩)
    have hne := List.find?_eq_none.mp hnone p hp
    exact absurd hpt (by simpa using hne)

/-- A request for a line disputes its quantity exactly when it brings another number. -/
theorem Trabajo.add_conflictos_iff (t : Trabajo) (code name brand : Texto) (qty : Option ℤ)
    (fuente aliasTexto : Texto) :
    (t.add code name brand qty fuente aliasTexto).e.conflictos ⊆ t.e.conflictos ↔
      ¬ ∃ ln q, t.e.linea code = some ln ∧ qty = some q ∧ q ≠ ln.qty ∧
        Conflicto.mk code (Texto.orElse ln.name name) (sortedSet [q, ln.qty, q + ln.qty]) ∉
          t.e.conflictos := by
  rcases t.add_cases code name brand qty fuente aliasTexto with
    ⟨ln, hln, hq, h⟩ | ⟨ln, q, hln, rfl, hne, h⟩ | ⟨hln, h⟩
  · rw [h]
    refine iff_of_true (List.Subset.refl _) ?_
    rintro ⟨ln', q, hln', rfl, hne, -⟩
    obtain rfl : ln = ln' := Option.some.inj (hln.symm.trans hln')
    rcases hq with hq | hq
    · cases hq
    · exact hne (Option.some.inj hq)
  · have hitems : (t.add code name brand (some q) fuente aliasTexto).e.openItems =
        quitaConflictos code t.e.openItems ++
          [.conflicto ⟨code, Texto.orElse ln.name name, sortedSet [q, ln.qty, q + ln.qty]⟩] := by
      rw [h]
      rfl
    constructor
    · rintro hsub ⟨ln', q', hln', hq', -, hno⟩
      obtain rfl : ln = ln' := Option.some.inj (hln.symm.trans hln')
      obtain rfl := Option.some.inj hq'
      refine hno (hsub (mem_conflictos.mpr ?_))
      rw [hitems]
      exact List.mem_append_right _ (List.mem_singleton_self _)
    · intro hall c hc
      have hmem := mem_conflictos.mp hc
      rw [hitems] at hmem
      rcases List.mem_append.mp hmem with hmem | hmem
      · exact mem_conflictos.mpr (List.mem_of_mem_filter hmem)
      · obtain rfl := Item.conflicto.inj (List.mem_singleton.mp hmem)
        by_contra hno
        exact hall ⟨ln, q, hln, rfl, hne, hno⟩
  · rw [h]
    refine iff_of_true (List.Subset.refl _) ?_
    rintro ⟨ln, q, hln', -⟩
    rw [hln] at hln'
    cases hln'

/-- In a turn with media one operation asks nothing exactly when it takes none of the branches that
ask. The quantities a confirmation disputes are those of an earlier proposal. -/
theorem paso_consulta_iff (t : Trabajo) (op : Op) :
    ((∀ texto o, (paso true t op).e.ofrece texto o → t.e.ofrece texto o) ∧
      (op ≠ .confirmar → (paso true t op).e.conflictos ⊆ t.e.conflictos)) ↔ ¬ op.Consulta t.e := by
  cases op with
  | opciones texto qty ops ind =>
    rw [opciones_ofrece_iff]
    exact and_iff_left fun _ => conflictos_of_paso rfl
  | sinCandidatos texto qty =>
    rw [sinCandidatos_ofrece_iff]
    exact and_iff_left fun _ => conflictos_of_paso rfl
  | elige texto code name brand fuente =>
    rw [and_iff_right fun texto' o => ofrece_of_paso rfl, forall_prop_of_true (by simp)]
    simp only [paso, Op.Consulta]
    cases hp : t.e.productosAbiertos.find? fun p => p.texto = texto with
    | none => exact t.add_conflictos_iff code name brand none fuente texto
    | some p =>
      have hconf : (t.quita (.producto p)).e.conflictos = t.e.conflictos :=
        filterMap_erase_of_none rfl t.e.openItems
      have hadd := (t.quita (.producto p)).add_conflictos_iff code name brand p.qty fuente texto
      rw [hconf] at hadd
      exact hadd
  | confirmar =>
    refine iff_of_true ⟨fun texto o => ofrece_of_paso rfl, fun h => absurd rfl h⟩ ?_
    exact fun h => h
  | add code name brand qty fuente =>
    refine iff_of_true ⟨fun texto o => ofrece_of_paso rfl, fun _ => conflictos_of_paso rfl⟩ ?_
    exact fun h => h
  | _ =>
    refine iff_of_true ⟨fun texto o => ofrece_of_paso rfl, fun _ => conflictos_of_paso rfl⟩ ?_
    exact fun h => h

/-! ## The end of the turn -/

theorem addLineas_code_mem (fuente : Texto) {items : List Linea} (t : Trabajo) {c : Texto}
    (h : c ∈ items.map Linea.code) : c ∈ (items.foldl (Trabajo.addLinea fuente) t).e.codes := by
  induction items generalizing t with
  | nil => exact absurd h List.not_mem_nil
  | cons l items ih =>
    rw [List.foldl_cons]
    rcases List.mem_cons.mp h with rfl | h
    · have hmem : l.code ∈ (t.addLinea fuente l).e.codes := t.add_code_mem l.code l.name [] _ fuente []
      exact ((addLineas_cart_grows fuente items (t.addLinea fuente l)).map Linea.code).subset hmem
    · exact ih _ h

/-- A requested code is in the cart when the operation is done. -/
theorem pedida_codes {c : Texto} {q : Option ℤ} (h : (c, q) ∈ op.pedidas fm t.e) :
    c ∈ (paso fm t op).e.codes := by
  cases op with
  | add code name brand qty fuente =>
    cases fm with
    | true => exact absurd h List.not_mem_nil
    | false =>
      obtain ⟨rfl, rfl⟩ := Prod.mk.inj (List.mem_singleton.mp h)
      exact t.add_code_mem c name brand q fuente []
  | elige texto code name brand fuente =>
    obtain ⟨rfl, -⟩ := Prod.mk.inj (List.mem_singleton.mp h)
    simp only [paso]
    split
    · exact Trabajo.add_code_mem _ c name brand _ fuente texto
    · exact Trabajo.add_code_mem _ c name brand _ fuente texto
  | confirmar =>
    simp only [Op.pedidas] at h
    cases hv : t.e.siNoVivo with
    | none =>
      rw [hv] at h
      exact absurd h List.not_mem_nil
    | some v =>
      rw [hv] at h
      dsimp only at h
      have hc : v.tipo.deLineas ∧ c ∈ v.codes := by
        by_cases ht : v.tipo.deLineas
        · rw [if_pos ht] at h
          obtain ⟨l, hl, hlc⟩ := List.mem_map.mp h
          exact ⟨ht, List.mem_map.mpr ⟨l, hl, (Prod.mk.inj hlc).1⟩⟩
        · rw [if_neg ht] at h
          exact absurd h List.not_mem_nil
      simp only [paso, hv, ejecuta]
      cases htipo : v.tipo with
      | cierre => rw [htipo] at hc; exact absurd hc.1 (by decide)
      | baja => rw [htipo] at hc; exact absurd hc.1 (by decide)
      | media => exact addLineas_code_mem "media" _ hc.2
      | repetir => exact addLineas_code_mem "repetir" _ hc.2
  | _ => exact absurd h List.not_mem_nil

/-- In a turn that writes no line every requested code has its line from the start, so rule 3 finds
the line of every code that is asked with two numbers. -/
theorem deAcuerdo_of_kept (hcart : ∀ xs ys, ops = xs ++ ys → (tras fm e g xs).e.cart = e.cart)
    (hs : ¬ (tras fm e g ops).suspende) : (tras fm e g ops).DeAcuerdo := by
  intro r hr
  by_contra hlen
  have hlt : 1 < (distintas r.2).length := Nat.lt_of_not_le hlen
  obtain ⟨a, -, -, ⟨xs, op, ys, hops, hreq⟩, -⟩ :=
    (suspendida_iff fm e g ops r.1).mp ⟨r, hr, hlt, rfl⟩
  have hcode : r.1 ∈ (tras fm e g (xs ++ [op])).e.codes := by
    rw [tras_concat]
    exact pedida_codes hreq
  have hkept : (tras fm e g (xs ++ [op])).e.cart = (tras fm e g ops).e.cart :=
    (hcart (xs ++ [op]) ys (by simp [hops])).trans (hcart ops [] (by simp)).symm
  rw [Estado.codes, hkept] at hcode
  obtain ⟨l, hl, hlr⟩ := List.mem_map.mp hcode
  refine hs ⟨r, hr, hlt, ?_⟩
  rw [Estado.linea, List.find?_isSome]
  exact ⟨l, hl, by simpa using hlr⟩

theorem pase2_ofrece {t : Trabajo} {texto : Texto} {o : Option Opcion} (h : (pase2 t).e.ofrece texto o) :
    t.e.ofrece texto o := by
  obtain ⟨p', hp', ht, ho⟩ := ofrece_iff.mp h
  rcases pase2_abre hp' with ⟨i, hi, hs⟩ | ⟨v, hv⟩ | ⟨c, hc⟩
  · cases hs with
    | @producto p _ htext hopts hq =>
      exact ofrece_iff.mpr ⟨p, hi, htext.symm.trans ht, fun x hx => hopts ▸ ho x hx⟩
    | igual => exact ofrece_iff.mpr ⟨p', hi, ht, ho⟩
  · cases hv
  · cases hc

theorem pase2_disputas (ht : t.DeAcuerdo) : (pase2 t).e.conflictos ⊆ t.e.conflictos := by
  intro c hc
  rcases pase2_abre_of_deAcuerdo ht (mem_conflictos.mp hc) with ⟨i, hi, hs⟩ | ⟨v, hv⟩
  · cases hs
    exact mem_conflictos.mpr hi
  · cases hv

/-! ## A product that is set aside -/

/-- The code is nowhere in the state but in the lines of the proposal `v?`. -/
structure Estado.Reserva (e : Estado) (v? : Option Propuesta) (c : Texto) : Prop where
  cart : c ∉ e.codes
  ultimo : c ∉ e.lastClosedCart.map Linea.code
  opciones : ∀ p ∈ e.productosAbiertos, c ∉ p.opciones.map Opcion.code
  conflictos : ∀ k ∈ e.conflictos, k.code ≠ c
  propuestas : ∀ v ∈ e.siNos, v.tipo.deLineas → c ∈ v.codes → v? = some v

/-- The operation asks for the code anew: it is not the pick of an option that is offered. -/
def Op.Nombra (e : Estado) (c : Texto) : Op → Prop
  | .add code _ _ _ _ => code = c
  | .opciones _ _ ops _ => c ∈ ops.map Opcion.code
  | .elige texto code _ _ _ =>
    code = c ∧ ∀ p ∈ e.productosAbiertos, p.texto = texto → c ∉ p.opciones.map Opcion.code
  | _ => False

section Aparte

variable {v? : Option Propuesta} {c : Texto}

theorem reserva_of_ajeno (h : c ∉ e.conocidos) : e.Reserva none c := by
  have hitems {i : Item} (hi : i ∈ e.openItems) : c ∉ i.codes := fun hc =>
    h (List.mem_append_left _ (List.mem_append_right _ (List.mem_flatMap.mpr ⟨i, hi, hc⟩)))
  refine ⟨?_, fun hc => h (List.mem_append_right _ hc), ?_, ?_, ?_⟩
  · exact fun hc => h (List.mem_append_left _ (List.mem_append_left _ hc))
  · exact fun p hp => hitems (mem_productosAbiertos.mp hp)
  · rintro k hk rfl
    exact hitems (mem_conflictos.mp hk) (List.mem_singleton_self _)
  · intro v hv _ hc
    obtain ⟨i, hi, hiv⟩ := List.mem_filterMap.mp hv
    obtain rfl := (siNo?_eq_some i v).mp hiv
    exact absurd (List.mem_cons_of_mem _ hc) (hitems hi)

/-- A pick of the code asks for it anew when no open product offers it. -/
theorem Estado.Reserva.nombra_of_elige (h : e.Reserva v? c) {texto name brand fuente : Texto} :
    (Op.elige texto c name brand fuente).Nombra e c :=
  ⟨rfl, fun p hp _ => h.opciones p hp⟩

/-- The step lemma of the entry: the code comes to the cart by the confirmation of the proposal. -/
theorem entra_confirmado (h : t.e.Reserva v? c) (hn : ¬ op.Nombra t.e c)
    (hc : c ∈ (paso fm t op).e.codes) :
    op = .confirmar ∧ ∃ v, v? = some v ∧ t.e.siNoVivo = some v ∧ c ∈ v.codes := by
  rcases paso_codes fm t op hc with hc' | hc' | ⟨rfl, v, hv, ht, hcv⟩
  · exact absurd hc' h.cart
  · exfalso
    cases op with
    | add code name brand qty fuente => exact hn (Option.some.inj hc')
    | elige texto code name brand fuente =>
      obtain rfl : code = c := Option.some.inj hc'
      exact hn h.nombra_of_elige
    | eligeQty code valor =>
      -- without a conflict of the code nothing is written
      obtain rfl : code = c := Option.some.inj hc'
      have hnone : t.e.conflictos.find? (fun k => k.code = code) = none := by
        simpa using h.conflictos
      have hkeep : (paso fm t (.eligeQty code valor)).e = t.e := by
        simp only [paso, hnone]
        rfl
      exact h.cart (hkeep ▸ hc)
    | _ => cases hc'
  · obtain ⟨vs, hvs⟩ := siNoVivo_eq_some.mp hv
    exact ⟨rfl, v, h.propuestas v (by rw [hvs]; exact List.mem_cons_self) ht hcv, hv, hcv⟩

/-- The step lemma of the invariant. -/
theorem paso_reserva (h : t.e.Reserva v? c) (hc : c ∉ (paso fm t op).e.codes)
    (ho : ∀ p ∈ (paso fm t op).e.productosAbiertos, c ∉ p.opciones.map Opcion.code) :
    (paso fm t op).e.Reserva v? c where
  cart := hc
  ultimo := paso_lastClosedCart t op ▸ h.ultimo
  opciones := ho
  conflictos := by
    rintro k hk rfl
    rcases (paso_mueve fm t op).abre _ (mem_conflictos.mp hk) with hk | hk
    · exact h.conflictos k (mem_conflictos.mpr hk) rfl
    · cases hk with
      | conflicto hcode => exact hc hcode
  propuestas := by
    intro v hv ht hcv
    rw [paso_siNos] at hv
    split at hv
    · exact h.propuestas v (List.mem_of_mem_tail hv) ht hcv
    · split at hv
      · exact absurd (apertura_codes (Option.mem_toList.mp hv) ht c hcv) h.ultimo
      · exact h.propuestas v hv ht hcv

/-- An operation that does not ask for the code does not offer it. -/
theorem paso_no_ofrece (h : t.e.Reserva v? c) (hn : ¬ op.Nombra t.e c) :
    ∀ p ∈ (paso fm t op).e.productosAbiertos, c ∉ p.opciones.map Opcion.code := by
  intro p' hp' hc
  rcases (paso_mueve fm t op).abre _ (mem_productosAbiertos.mp hp') with hp | hp
  · exact h.opciones p' (mem_productosAbiertos.mpr hp) hc
  · have hofertas : c ∈ op.ofertas.map Opcion.code := by
      cases hp with
      | nuevo hop ho => exact List.map_subset _ ho hc
      | cambia hp ht hq ho => exact List.map_subset _ ho hc
    cases op with
    | opciones texto qty ops ind => exact hn hofertas
    | _ => exact absurd hofertas List.not_mem_nil

/-- The locals of a turn in which the code does not come up: it is in no request either. -/
structure Trabajo.Aparte (t : Trabajo) (v? : Option Propuesta) (c : Texto) : Prop where
  estado : t.e.Reserva v? c
  pedidas : ∀ q, ¬ Apuntada t.seenAdds c q
  lote : ∀ l ∈ t.lineasMedia, l.code ≠ c

theorem paso_aparte (h : t.Aparte v? c) (hn : ¬ op.Nombra t.e c)
    (hc : c ∉ (paso fm t op).e.codes) : (paso fm t op).Aparte v? c where
  estado := paso_reserva h.estado hc (paso_no_ofrece h.estado hn)
  pedidas := by
    intro q
    rw [paso_seenAdds, apuntada_apunta]
    rintro (hq | hq)
    · exact h.pedidas q hq
    · exact hc (pedida_codes hq)
  lote := by
    rcases paso_mediaBatch fm t op with hb | ⟨code, name, brand, qty, fuente, rfl, hb⟩
    · rw [Trabajo.lineasMedia, hb]
      exact h.lote
    · intro l hl
      rw [Trabajo.lineasMedia, hb, List.map_append] at hl
      rcases List.mem_append.mp hl with hl | hl
      · exact h.lote l hl
      · obtain rfl := List.mem_singleton.mp hl
        exact hn

/-- What pass 2 keeps: it writes no other code, and rule 3 finds no request for this one. -/
theorem pase2_reserva (h : t.e.Reserva v? c) (hp : ∀ q, ¬ Apuntada t.seenAdds c q)
    (hs : ∀ v ∈ (reglaMedia t).e.siNos, v.tipo.deLineas → c ∈ v.codes → v? = some v) :
    (pase2 t).e.Reserva v? c where
  cart := fun hc => h.cart (pase2_codes t hc)
  ultimo := pase2_lastClosedCart t ▸ h.ultimo
  opciones := by
    intro p hmem hc
    obtain ⟨o, ho, rfl⟩ := List.mem_map.mp hc
    have hof : (pase2 t).e.ofrece p.texto (some o) :=
      ⟨p, hmem, rfl, fun x hx => Option.some.inj hx ▸ ho⟩
    obtain ⟨q, hq, -, hqo⟩ := pase2_ofrece hof
    exact h.opciones q hq (List.mem_map_of_mem (hqo o rfl))
  conflictos := by
    rintro k hk rfl
    have hk3 := (pase2_conflictos t).mp ⟨k, mem_conflictos.mp hk, rfl⟩
    rcases (regla3_guarda (reglaMedia t)).mp (.inr hk3) with (hc | hc) | ⟨r, hr, hlt, hrc⟩
    · rw [Estado.codes, reglaMedia_cart] at hc
      exact h.cart hc
    · obtain ⟨k', hk', hcode⟩ := (reglaMedia_conflictos t).mp hc
      exact h.conflictos k' (mem_conflictos.mpr hk') hcode
    · rw [(reglaMedia_frame t).1] at hr
      obtain ⟨a, -, -, ha, -⟩ := one_lt_distintas.mp hlt
      exact hp (some a) ⟨r.2, hrc ▸ hr, ha⟩
  propuestas := by
    rw [pase2_siNos]
    exact hs

/-! ## Sessions -/

/-- The operations `xs` of the turn neither ask for the code anew nor bring it to the cart. -/
def Turno.SinEntrar (t : Turno) (c : Texto) (xs : List Op) : Prop :=
  ∀ as op bs, xs = as ++ op :: bs →
    ¬ op.Nombra (t.tras as).e c ∧ c ∉ (t.tras (as ++ [op])).e.codes

/-- The agent takes the turn `t` on this input. -/
def Sesion.Toma (U : Unicode) (s : Sesion) (x : Entrada) (t : Turno) : Prop :=
  turnoDe U x.entorno s.archiva.paraElAgente x.mensaje x.extraccion = .ok (.turno t)

/-- In every session that goes on from the state `r`, the first operation that brings the code to
the cart is the confirmation of the proposal `v?`, unless the client has asked for it anew. -/
def SoloConfirmado (r : Estado) (v? : Option Propuesta) (c : Texto) : Prop :=
  ∀ (U : Unicode) (s s' : Sesion) (x : Entrada) (t : Turno) (xs : List Op) (op : Op) (ys : List Op),
    s.lastClosedCart = r.lastClosedCart →
    Reachable (pasoSesion U) (fun s x => x.adelantado = false → ∀ t, s.Toma U x t → t.SinEntrar c t.ops)
      (s.tras r) s' →
    s'.Toma U x t → t.ops = xs ++ op :: ys → t.SinEntrar c xs → ¬ op.Nombra (t.tras xs).e c →
    c ∈ (t.tras (xs ++ [op])).e.codes →
    op = .confirmar ∧ ∃ v, v? = some v ∧ (t.tras xs).e.siNoVivo = some v ∧ c ∈ v.codes

variable {U : Unicode} {s s' : Sesion} {x : Entrada} {u : Turno}

theorem tras_aparte (h : u.estado.Reserva v? c) (xs : List Op) (hx : u.SinEntrar c xs) :
    (u.tras xs).Aparte v? c := by
  induction xs using List.reverseRecOn with
  | nil =>
    refine ⟨h, ?_, ?_⟩
    · rintro q ⟨qs, hqs, -⟩
      exact absurd hqs List.not_mem_nil
    · exact fun l hl => absurd hl List.not_mem_nil
  | append_singleton xs op ih =>
    have hprev : u.SinEntrar c xs := fun as o bs hxs =>
      hx as o (bs ++ [op]) (by rw [hxs, List.append_assoc, List.cons_append])
    obtain ⟨hn, hc⟩ := hx xs op [] rfl
    rw [Turno.tras_concat] at hc ⊢
    exact paso_aparte (ih hprev) hn hc

theorem resultado_reserva (h : u.estado.Reserva v? c) (hx : u.SinEntrar c u.ops) :
    u.resultado.estado.Reserva v? c := by
  obtain ⟨hest, hped, hlote⟩ := tras_aparte h u.ops hx
  rw [Turno.resultado_estado]
  refine pase2_reserva hest hped fun v hv ht hcv => ?_
  rw [reglaMedia_siNos] at hv
  split at hv
  · split at hv
    · exact absurd hv List.not_mem_nil
    · -- the proposal this turn would make of its own products
      obtain rfl := List.mem_singleton.mp hv
      obtain ⟨l, hl, hlc⟩ := List.mem_map.mp hcv
      exact absurd hlc (hlote l hl)
  · exact hest.propuestas v hv ht hcv

theorem archiva_reserva (h : s.guardado.Reserva v? c) : s.archiva.guardado.Reserva v? c := by
  unfold Sesion.archiva
  split
  · exact ⟨h.cart, h.cart, h.opciones, h.conflictos, h.propuestas⟩
  · exact h

theorem inicio_reserva (h : s.guardado.Reserva v? c) : s.inicio.Reserva v? c := by
  by_cases hclosed : s.orderStatus = .closed
  · rw [inicio_of_closed hclosed]
    refine ⟨List.not_mem_nil, (archiva_reserva h).ultimo, ?_, ?_, ?_⟩
    all_goals
      intro _ hmem
      exact absurd hmem List.not_mem_nil
  · rw [inicio_of_open hclosed]
    refine ⟨fun hc => h.cart ?_, h.ultimo, h.opciones, h.conflictos, h.propuestas⟩
    obtain ⟨l, hl, rfl⟩ := List.mem_map.mp hc
    obtain ⟨k, hk, rfl⟩ := List.mem_map.mp hl
    exact List.mem_map.mpr ⟨k, List.mem_of_mem_filter hk, rfl⟩

theorem toma_reserva (h : s.guardado.Reserva v? c) (ht : s.Toma U x u) : u.estado.Reserva v? c := by
  have hini := inicio_reserva h
  rcases turnoDe_cases ht with ⟨he, -, -⟩ | ⟨actos, hablar, -, hres, -, -⟩
  · rw [he]
    exact hini
  · obtain ⟨prods, qs, hrec, he, -⟩ := resolver_origen hres
    have hview : Recontado s.inicio u.estado prods := he ▸ recontado hrec
    refine ⟨?_, hview.ultimo ▸ hini.ultimo, ?_, hview.conflictos ▸ hini.conflictos,
      hview.siNos ▸ hini.propuestas⟩
    · rw [Estado.codes, hview.cart]
      exact hini.cart
    · intro p hp
      obtain ⟨q, hq, n, rfl, -⟩ := recontados_mem hrec (hview.productos ▸ hp)
      exact hini.opciones q hq

theorem guardada_reserva {r : Estado} (h : r.Reserva v? c) (hs : c ∉ s.lastClosedCart.map Linea.code) :
    (s.tras r).guardado.Reserva v? c := by
  have hitems : (s.tras r).guardado.openItems = r.openItems := coerceOpenItem_tipado r.openItems
  refine ⟨h.cart, ?_, ?_, ?_, ?_⟩
  · show c ∉ (if r.orderStatus = .closed then r.cart else s.lastClosedCart).map Linea.code
    split
    · exact h.cart
    · exact hs
  · rw [Estado.productosAbiertos, hitems]
    exact h.opciones
  · rw [Estado.conflictos, hitems]
    exact h.conflictos
  · rw [Estado.siNos, hitems]
    exact h.propuestas

theorem runTurn_adelantado {k : Option KapaOrder} (ha : x.adelantado)
    (h : runTurn U s x = some (s', k)) : s' = s.archiva := by
  unfold runTurn at h
  dsimp only at h
  split at h
  · cases h
  · rw [if_pos ha] at h
    split at h
    · cases h
    · cases h
      rfl

/-- A turn that does not bring the code to the cart leaves it where it was. -/
theorem pasoSesion_reserva (hp : pasoSesion U s x = some s') (h : s.guardado.Reserva v? c)
    (hx : x.adelantado = false → ∀ t, s.Toma U x t → t.SinEntrar c t.ops) :
    s'.guardado.Reserva v? c := by
  obtain ⟨⟨s₁, k⟩, hrun, rfl⟩ := Option.map_eq_some_iff.mp hp
  by_cases ha : x.adelantado
  · obtain rfl := runTurn_adelantado ha hrun
    exact archiva_reserva h
  · rcases runTurn_cases hrun with ⟨hyes, -, -⟩ | ⟨r, hr, -, rfl, -⟩
    · exact absurd hyes ha
    · refine guardada_reserva ?_ (archiva_reserva h).ultimo
      rcases runAgent_cases hr with he | ⟨t, ht, he⟩
      · rw [he]
        exact inicio_reserva h
      · rw [he]
        exact resultado_reserva (toma_reserva h ht) (hx (Bool.eq_false_of_not_eq_true ha) t ht)

/-- What is set aside comes to the cart by its confirmation. -/
theorem soloConfirmado_of_reserva {r : Estado} (h : r.Reserva v? c) : SoloConfirmado r v? c := by
  intro U s s' x t xs op ys hlast hreach ht hops hx hn hc
  have hstart : (s.tras r).guardado.Reserva v? c := guardada_reserva h (hlast ▸ h.ultimo)
  have hend : s'.guardado.Reserva v? c :=
    hreach.invariant (I := fun s => s.guardado.Reserva v? c) hstart
      fun s x s' hx hp hi => pasoSesion_reserva hp hi hx
  have htras := tras_aparte (toma_reserva hend ht) xs hx
  rw [Turno.tras_concat] at hc
  exact entra_confirmado htras.estado hn hc

end Aparte

/-! ## The turn with media -/

/-- What the rule of media orders asks of a turn: the cart is the same after every operation and at
the end, the products read stand in one proposal, if there is no other one for the client to answer
first, no product is asked about and no quantity is disputed, and in the sessions that go on from it
a product that is new with the turn comes to the cart by the confirmation of that proposal. -/
structure MediaOrder (e : Estado) (g : Option ℤ) (ops : List Op) : Prop where
  cart : ∀ xs ys, ops = xs ++ ys → (tras true e g xs).e.cart = e.cart
  cart_end : (aplicar e ops true g).estado.cart = e.cart
  proposal : (aplicar e ops true g).estado.siNos =
    if (tras true e g ops).e.siNos = [] then (propuestaMedia ops).toList
    else (tras true e g ops).e.siNos
  asked : ∀ xs op ys, ops = xs ++ op :: ys → ∀ texto o,
    (tras true e g (xs ++ [op])).e.ofrece texto o → (tras true e g xs).e.ofrece texto o
  asked_end : ∀ texto o, (aplicar e ops true g).estado.ofrece texto o →
    (tras true e g ops).e.ofrece texto o
  disputed : ∀ xs op ys, ops = xs ++ op :: ys → op ≠ .confirmar →
    (tras true e g (xs ++ [op])).e.conflictos ⊆ (tras true e g xs).e.conflictos
  disputed_end : (aplicar e ops true g).estado.conflictos ⊆ (tras true e g ops).e.conflictos
  later : ∀ c, c ∉ e.conocidos → SoloConfirmado (aplicar e ops true g).estado (propuestaMedia ops) c

/-- No operation of the turn takes a branch that writes a line or asks about a product or a
quantity, and no line has been asked with two different numbers by the picks of the turn. -/
structure OnlyProposes (e : Estado) (g : Option ℤ) (ops : List Op) : Prop where
  writes : ∀ xs op ys, ops = xs ++ op :: ys → op.escribe true (tras true e g xs).e = false
  asks : ∀ xs op ys, ops = xs ++ op :: ys → ¬ op.Consulta (tras true e g xs).e
  suspends : ¬ (tras true e g ops).suspende

theorem asks_iff : (∀ xs op ys, ops = xs ++ op :: ys → ¬ op.Consulta (tras true e g xs).e) ↔
    ∀ xs op ys, ops = xs ++ op :: ys →
      (∀ texto o, (tras true e g (xs ++ [op])).e.ofrece texto o → (tras true e g xs).e.ofrece texto o) ∧
      (op ≠ .confirmar →
        (tras true e g (xs ++ [op])).e.conflictos ⊆ (tras true e g xs).e.conflictos) := by
  refine forall₄_congr fun xs op ys _ => ?_
  rw [tras_concat]
  exact (paso_consulta_iff _ op).symm

/-- A code that is new with the turn is nowhere but in its proposal. -/
theorem media_reserva (h : OnlyProposes e g ops) {c : Texto} (hc : c ∉ e.conocidos) :
    (aplicar e ops true g).estado.Reserva (propuestaMedia ops) c := by
  have hcart := cart_kept_iff.mpr h.writes
  have hfresh : c ∉ e.codes := fun hcode => hc (List.mem_append_left _ (List.mem_append_left _ hcode))
  have hpass (xs ys : List Op) (hops : ops = xs ++ ys) :
      (tras true e g xs).e.Reserva none c ∧ ∀ q, ¬ Apuntada (tras true e g xs).seenAdds c q := by
    induction xs using List.reverseRecOn generalizing ys with
    | nil =>
      refine ⟨reserva_of_ajeno hc, ?_⟩
      rintro q ⟨qs, hqs, -⟩
      exact absurd hqs List.not_mem_nil
    | append_singleton xs op ih =>
      have hsplit : ops = xs ++ op :: ys := by simp [hops]
      obtain ⟨hres, hseen⟩ := ih _ hsplit
      have hcodes : c ∉ (paso true (tras true e g xs) op).e.codes := by
        rw [← tras_concat, Estado.codes, hcart _ ys hops]
        exact hfresh
      rw [tras_concat]
      refine ⟨paso_reserva hres hcodes fun p hp hcp => ?_, fun q => ?_⟩
      · obtain ⟨o, ho, rfl⟩ := List.mem_map.mp hcp
        have hof : (paso true (tras true e g xs) op).e.ofrece p.texto (some o) :=
          ⟨p, hp, rfl, fun x hx => Option.some.inj hx ▸ ho⟩
        obtain ⟨p', hp', -, ho'⟩ :=
          ((paso_consulta_iff _ op).mpr (h.asks xs op ys hsplit)).1 _ _ hof
        exact hres.opciones p' hp' (List.mem_map_of_mem (ho' o rfl))
      · rw [paso_seenAdds, apuntada_apunta]
        rintro (hq | hq)
        · exact hseen q hq
        · exact hcodes (pedida_codes hq)
  obtain ⟨hres, hseen⟩ := hpass ops [] (by simp)
  rw [aplicar_estado]
  refine pase2_reserva ⟨hres.cart, hres.ultimo, hres.opciones, hres.conflictos, ?_⟩ hseen ?_
  · intro v hv ht hcv
    cases hres.propuestas v hv ht hcv
  · intro v hv ht hcv
    rw [← pase2_siNos, ← aplicar_estado, aplicar_siNos_media] at hv
    split at hv
    · exact Option.mem_toList.mp hv
    · cases hres.propuestas v hv ht hcv

-- a photo of a product with two candidates opens it, and a later pick needs no confirmation
example :
    ¬ OnlyProposes {} none [.opciones "serum" (some 2)
      [⟨"SN200", "SERUM NOCHE 30ML", "ROC", "catalogo", [], []⟩,
        ⟨"SD100", "SERUM DIA 30ML", "ROC", "catalogo", [], []⟩] false] :=
  fun h => h.asks [] _ [] rfl trivial

end Chatlink.Agent
