import Chatlink.Agent.ItemSteps
import Chatlink.Agent.MediaOrders
import Chatlink.Agent.Provenance

/-!
# Where the quantities of a turn come from

A turn changes quantities in three places: the resolver counts an open product again,
an operation writes a line or opens a product, and pass 2 spreads the global quantity.
Each change is accounted for by a number of the message, with two exceptions that the
design wants: a picked product keeps the quantity it was asked with in an earlier turn,
and a conflict is settled at one of the quantities it offers.
-/
namespace Chatlink.Agent

open Lists Texto

/-! ## Numbers of the message -/

/-- A number of the message as stage 0 reads it. -/
def Numero (U : Unicode) (mensaje : Texto) (n : ℤ) : Prop :=
  ∃ s ∈ lecturas U mensaje, n ∈ numerosEn U s

instance (U : Unicode) (mensaje : Texto) (n : ℤ) : Decidable (Numero U mensaje n) :=
  inferInstanceAs (Decidable (∃ s ∈ lecturas U mensaje, n ∈ numerosEn U s))

/-- A number of the message, of one of its lines, or of the text that is left once the lines of a list are taken out. -/
def NumeroLeido (U : Unicode) (mensaje : Texto) (n : ℤ) : Prop :=
  ∃ r ∈ aplana U (preprocesar U mensaje).texto :: lecturas U mensaje, n ∈ numerosEn U r

/-- The number that an act carries, where it is one of the span of that text which the act quotes as its evidence. -/
def NumeroCitado (U : Unicode) (mensaje : Texto) (extraccion : Option Json) (n : ℤ) : Prop :=
  ∃ a ∈ actosAceptados U mensaje extraccion, (a.cantidad.valor = some n ∨ a.valor = some n) ∧
    Texto.contains (aplana U (preprocesar U mensaje).texto) (aplana U a.evidencia) ∧
      n ∈ numerosEn U (aplana U a.evidencia)

/-- A number of the message, or of the evidence of the act that carries it. -/
def NumeroEscrito (U : Unicode) (mensaje : Texto) (extraccion : Option Json) (n : ℤ) : Prop :=
  NumeroLeido U mensaje n ∨ NumeroCitado U mensaje extraccion n

/-- The acts of the turn answer conflicts with numbers that stand in the message, no digit beside them. -/
def RespuestasCitadas (U : Unicode) (e : Estado) (mensaje : Texto) (extraccion : Option Json) :
    Prop :=
  ∀ actos hablar, actosDelTurno U e mensaje extraccion = .ok (some actos, hablar) →
    ∀ a ∈ actos, ∀ t, a.respuesta? = some t → U.isdigit (strip t) →
      (∀ c ∈ strip t, U.isDecimal c) ∧
        ∃ r ∈ lecturas U mensaje, Acotado (fun c => !U.isDecimal c) (strip t) r

/-! ## The rule -/

/-- The open products and the review lines, each with its quantity. -/
def Estado.pendientes (e : Estado) : List (Texto × Option ℤ) :=
  e.productosAbiertos.map (fun p => (p.texto, p.qty)) ++ e.aRevisar

/-- A rule about quantities: the numbers it knows, how a step may leave a line of the
cart, and the quantities it may give to an open product. -/
structure Norma where
  numero : ℤ → Prop
  linea : Estado → Option Op → Linea → Prop
  pendiente : ℤ → Prop

/-- What the rule asks of one step of a turn; `none` stands for the resolver and for
pass 2. A proposal repeats lines or reads numbers. -/
structure Norma.Cumple (R : Norma) (op : Option Op) (e e' : Estado) : Prop where
  lineas : ∀ l ∈ e'.cart, (∃ k ∈ e.cart, k.code = l.code ∧ k.qty = l.qty) ∨ R.linea e op l
  pendientes : ∀ x ∈ e'.pendientes, x ∈ e.pendientes ∨ ∀ n ∈ x.2, R.pendiente n
  propuestas : ∀ v ∈ e'.siNos, v ∈ e.siNos ∨ ∀ l ∈ v.items, l.qty = 1 ∨ R.numero l.qty ∨
    ∃ k ∈ e.cart ++ e.lastClosedCart, k.code = l.code ∧ k.qty = l.qty

/-- Every step of the turn keeps the rule. -/
structure Norma.EnTurno (R : Norma) (e : Estado) (t : Turno) : Prop where
  recount : R.Cumple none e t.estado
  operation : ∀ xs op ys, t.ops = xs ++ op :: ys →
    R.Cumple (some op) (t.tras xs).e (t.tras (xs ++ [op])).e
  pass2 : R.Cumple none (t.tras t.ops).e t.resultado.estado

/-- The rule holds of every turn of the agent that does anything. -/
def QuantitiesAccounted (R : Norma) (U : Unicode) (E : Entorno) (s : Sesion) (mensaje : Texto)
    (extraccion : Option Json) : Prop :=
  ∀ intro resume r, runAgent U E s mensaje extraccion intro resume = .ok r →
    r.estado = Estado.fromSession s ∨
      ∃ t, turnoDe U E s mensaje extraccion = .ok (.turno t) ∧
        r.estado = t.resultado.estado ∧ R.EnTurno (Estado.fromSession s) t

/-- A changed line: new and without a number, at a number, a number more or less than
before, or as in the confirmed proposal. -/
inductive CantidadDe (N : ℤ → Prop) (e : Estado) (op : Option Op) (l : Linea) : Prop
  | sinNumero (hnew : e.linea l.code = none) (hq : l.qty = 1)
  | escrita (h : N l.qty)
  | suma {k : Linea} {n : ℤ} (hk : e.linea l.code = some k) (hn : N n) (hq : l.qty = k.qty + n)
  | resta {k : Linea} {n : ℤ} (hk : e.linea l.code = some k) (hn : N n) (hq : l.qty = k.qty - n)
  | confirmada {v : Propuesta} {k : Linea} (hop : op = some .confirmar)
      (hv : e.siNoVivo = some v) (hk : k ∈ v.items) (hc : k.code = l.code)
      (hq : l.qty = orNum (some k.qty) 1)

/-- A changed line, with what the design adds: the line of a picked product has the
quantity of that product, and a settled conflict one of those it offers, a number of the
message when `citada` holds. -/
inductive CantidadConHerencia (N : ℤ → Prop) (citada : Prop) (e : Estado) (op : Option Op)
    (l : Linea) : Prop
  | norma (h : CantidadDe N e op l)
  | heredada {p : Producto} {name brand fuente : Texto}
      (hop : op = some (.elige p.texto l.code name brand fuente))
      (hp : p ∈ e.productosAbiertos) (hnew : e.linea l.code = none) (hq : p.qty = some l.qty)
  | acordada {k : Conflicto} (hop : op = some (.eligeQty l.code l.qty)) (hk : k ∈ e.conflictos)
      (hc : k.code = l.code) (hq : l.qty ∈ k.opcionesQty) (hw : citada → N l.qty)

/-- Nothing but numbers of the message. -/
def soloEscritas (U : Unicode) (mensaje : Texto) : Norma where
  numero := Numero U mensaje
  linea := CantidadDe (Numero U mensaje)
  pendiente := Numero U mensaje

/-- A number of the message, or the quantity of a product open when the turn began. -/
def Dicha (U : Unicode) (mensaje : Texto) (extraccion : Option Json) (e : Estado) (n : ℤ) : Prop :=
  NumeroEscrito U mensaje extraccion n ∨ ∃ p ∈ e.productosAbiertos, p.qty = some n

/-- The rule the design keeps; `e` is the state at the start of the turn. -/
def escritasOHeredadas (U : Unicode) (e : Estado) (mensaje : Texto) (extraccion : Option Json) :
    Norma where
  numero := NumeroEscrito U mensaje extraccion
  linea := CantidadConHerencia (NumeroEscrito U mensaje extraccion) (RespuestasCitadas U e mensaje extraccion)
  pendiente := Dicha U mensaje extraccion e

/-! ## Lines of the cart through the reducer -/

section Reducer

variable {N D : ℤ → Prop} {citada : Prop}

/-- Every quantity that an operation carries is accounted for. -/
def Op.Contada (N D : ℤ → Prop) (citada : Prop) : Op → Prop
  | .add _ _ _ qty _ => ∀ n ∈ qty, N n
  | .modificar _ _ _ valor _ _ => ∀ n ∈ valor, N n
  | .opciones _ qty _ _ => ∀ n ∈ qty, D n
  | .sinCandidatos _ qty => ∀ n ∈ qty, D n
  | .eligeQty _ valor => citada → N valor
  | .cantidadGlobal valor => ∀ n ∈ valor, N n
  | .repetirUltimo qo => ∀ n ∈ qo, N n
  | _ => True

/-- A line of the cart as it was. -/
def Estado.Conserva (e : Estado) (l : Linea) : Prop :=
  ∃ k ∈ e.cart, k.code = l.code ∧ k.qty = l.qty

theorem conserva_of_mem {e : Estado} {l : Linea} (h : l ∈ e.cart) : e.Conserva l :=
  ⟨l, h, rfl, rfl⟩

theorem mem_ponQty {code : Texto} {q : ℤ} {cart : List Linea} {l : Linea}
    (h : l ∈ ponQty code q cart) : l ∈ cart ∨ (l.code = code ∧ l.qty = q) := by
  induction cart with
  | nil => exact Or.inl h
  | cons k cart ih =>
    unfold ponQty at h
    split at h
    · next hk =>
      rcases List.mem_cons.mp h with rfl | h
      · exact Or.inr ⟨hk, rfl⟩
      · exact Or.inl (List.mem_cons_of_mem k h)
    · rcases List.mem_cons.mp h with rfl | h
      · exact Or.inl List.mem_cons_self
      · exact (ih h).imp_left (List.mem_cons_of_mem k)

theorem mem_add_cart {t : Trabajo} {code name brand : Texto} {qty : Option ℤ}
    {fuente aliasTexto : Texto} {l : Linea}
    (h : l ∈ (t.add code name brand qty fuente aliasTexto).e.cart) :
    l ∈ t.e.cart ∨ (t.e.linea code = none ∧ l.code = code ∧ l.qty = qty.getD 1) := by
  rw [Trabajo.add_cart] at h
  cases hln : t.e.linea code with
  | some ln =>
    rw [hln] at h
    exact Or.inl h
  | none =>
    rw [hln] at h
    rcases List.mem_append.mp h with h | h
    · exact Or.inl h
    · obtain rfl := List.mem_singleton.mp h
      exact Or.inr ⟨rfl, rfl, rfl⟩

theorem mem_addLineas_cart {fuente : Texto} {items : List Linea} {t : Trabajo} {l : Linea}
    (h : l ∈ (items.foldl (Trabajo.addLinea fuente) t).e.cart) :
    l ∈ t.e.cart ∨ ∃ k ∈ items, k.code = l.code ∧ l.qty = orNum (some k.qty) 1 := by
  refine foldl_keeps (P := fun u : Trabajo => ∀ l ∈ u.e.cart, l ∈ t.e.cart ∨
    ∃ k ∈ items, k.code = l.code ∧ l.qty = orNum (some k.qty) 1) items ?_
    (fun l hl => Or.inl hl) l h
  intro u k hk hu l hl
  rcases mem_add_cart hl with hl | ⟨-, hc, hq⟩
  · exact hu l hl
  · exact Or.inr ⟨k, hk, hc.symm, hq⟩

/-- The quantity that a `modificar` sets. -/
theorem modificar_cantidad {e : Estado} {op : Option Op} {l ln : Linea} {modo : Modo} {v q : ℤ}
    (hln : e.linea ln.code = some ln) (hv : N v) (hq : nuevaQty modo ln.qty v = q)
    (hlc : l.code = ln.code) (hlq : l.qty = q) : e.Conserva l ∨ CantidadDe N e op l := by
  have hk : e.linea l.code = some ln := hlc ▸ hln
  subst hlq
  cases modo with
  | total => exact Or.inr (.escrita (by rw [← hq]; exact hv))
  | incremento => exact Or.inr (.suma hk hv hq.symm)
  | decremento => exact Or.inr (.resta hk hv hq.symm)
  | eliminar => exact Or.inl ⟨ln, mem_of_linea hln, hlc.symm, hq⟩
  | sinCambio => exact Or.inl ⟨ln, mem_of_linea hln, hlc.symm, hq⟩

/-- The step lemma of the quantities of the cart. -/
theorem paso_lineas (fm : Bool) (t : Trabajo) {op : Op} (hop : op.Contada N D citada) :
    ∀ l ∈ (paso fm t op).e.cart,
      t.e.Conserva l ∨ CantidadConHerencia N citada t.e (some op) l := by
  intro l hl
  generalize hpaso : paso fm t op = t' at hl
  have hef : Efecto t op t' := hpaso ▸ paso_efecto fm t op
  cases hef with
  | quieto hq => exact Or.inl (conserva_of_mem (hq.cart ▸ hl))
  | aparta => exact Or.inl (conserva_of_mem hl)
  | dice => exact Or.inl (conserva_of_mem hl)
  | @add u code qty name brand fuente al hu hpide =>
    rcases mem_add_cart hl with hl | ⟨hln, rfl, hq⟩
    · exact Or.inl (conserva_of_mem (hu.cart ▸ hl))
    · right
      have hnew : t.e.linea l.code = none := (hu.linea _).symm.trans hln
      cases qty with
      | none => exact .norma (.sinNumero hnew hq)
      | some q =>
        cases op with
        | add c n b qo f =>
          obtain ⟨-, rfl⟩ := hpide
          exact .norma (.escrita (by rw [hq]; exact hop q rfl))
        | elige item c n b f =>
          obtain ⟨rfl, hn | ⟨p, hp, rfl, hpq⟩⟩ := hpide
          · cases hn
          · refine .heredada rfl hp hnew ?_
            rw [hpq, hq]
            rfl
        | _ => cases hpide
  | @fija u ln q name hu hln hfija =>
    rcases mem_ponQty hl with hl | ⟨hlc, hlq⟩
    · exact Or.inl (conserva_of_mem (hu.cart ▸ hl))
    · cases op with
      | modificar c n modo valor b vn =>
        obtain ⟨-, -, -, v, rfl, hq⟩ := hfija
        exact (modificar_cantidad hln (hop v rfl) hq hlc hlq).imp_right .norma
      | eligeQty c v =>
        obtain ⟨rfl, rfl, k, hk, hkc, hkq⟩ := hfija
        refine Or.inr (.acordada (k := k) ?_ hk (hkc.trans hlc.symm) (hlq ▸ hkq) ?_)
        · rw [hlc, hlq]
        · rw [hlq]
          exact hop
      | _ => cases hfija
  | @nueva u code q name hu hln hopq hq =>
    rcases List.mem_append.mp hl with hl | hl
    · exact Or.inl (conserva_of_mem (hu.cart ▸ hl))
    · obtain rfl := List.mem_singleton.mp hl
      obtain ⟨k, hk, hkc, hkq⟩ := hq
      subst hopq
      exact Or.inr (.acordada rfl hk hkc hkq hop)
  | borra name hu hb => exact Or.inl (conserva_of_mem (hu.cart ▸ List.mem_of_mem_filter hl))
  | lineas fuente hu hopc hv ht =>
    rcases mem_addLineas_cart hl with hl | ⟨k, hk, hkc, hkq⟩
    · exact Or.inl (conserva_of_mem (hu.cart ▸ hl))
    · exact Or.inr (.norma (.confirmada (congrArg some hopc) hv hk hkc hkq))
  | cierra hu hopc hv ht rs => exact Or.inl (conserva_of_mem (hu.cart ▸ hl))

/-! ## Open products, proposals and the global quantity -/

theorem paso_pendientes (fm : Bool) (t : Trabajo) {op : Op} (hop : op.Contada N D citada) :
    ∀ x ∈ (paso fm t op).e.pendientes, x ∈ t.e.pendientes ∨ ∀ n ∈ x.2, D n := by
  have hasked {x : Texto × Option ℤ} (h : op.pregunta? = some x) : ∀ n ∈ x.2, D n := by
    cases op with
    | opciones texto qty ops ind =>
      obtain rfl := Option.some.inj h
      exact hop
    | sinCandidatos texto qty =>
      obtain rfl := Option.some.inj h
      exact hop
    | _ => cases h
  have hopen {p : Producto} (hp : p ∈ t.e.productosAbiertos) :
      (p.texto, p.qty) ∈ t.e.pendientes :=
    List.mem_append_left _ (List.mem_map.mpr ⟨p, hp, rfl⟩)
  intro x hx
  rcases List.mem_append.mp hx with hx | hx
  · obtain ⟨p, hp, rfl⟩ := List.mem_map.mp hx
    obtain ⟨i, hi, hip⟩ := List.mem_filterMap.mp hp
    obtain rfl := (producto?_eq_some i p).mp hip
    rcases (paso_mueve fm t op).abre _ hi with hi | hi
    · exact Or.inl (hopen (List.mem_filterMap.mpr ⟨_, hi, rfl⟩))
    · cases hi with
      | nuevo hask ho => exact Or.inr (hasked hask)
      | cambia hp ht hq ho =>
        rcases hq with hq | hq
        · rw [ht, hq]
          exact Or.inl (hopen hp)
        · exact Or.inr (hasked hq)
  · obtain ⟨i, hi, hix⟩ := List.mem_filterMap.mp hx
    rcases (paso_mueve fm t op).abre _ hi with hi | hi
    · exact Or.inl (List.mem_append_right _ (List.mem_filterMap.mpr ⟨i, hi, hix⟩))
    · cases hi with
      | revisar hp =>
        obtain rfl := Option.some.inj hix
        exact Or.inl (hopen hp)
      | _ => cases hix

/-- The lines of a proposal that an operation opens. -/
theorem apertura_lineas {e : Estado} {op : Op} {v : Propuesta} (hop : op.Contada N D citada)
    (h : apertura e op = some v) : ∀ l ∈ v.items, l.qty = 1 ∨ N l.qty ∨
      ∃ k ∈ e.cart ++ e.lastClosedCart, k.code = l.code ∧ k.qty = l.qty := by
  intro l hl
  cases op with
  | cerrar =>
    simp only [apertura] at h
    split at h
    · cases h
    · obtain rfl := Option.some.inj h
      exact Or.inr (Or.inr ⟨l, List.mem_append_left _ hl, rfl, rfl⟩)
  | repetirUltimo qo =>
    simp only [apertura] at h
    split at h
    · cases h
    · obtain rfl := Option.some.inj h
      obtain ⟨c, hc, rfl⟩ := List.mem_map.mp hl
      have hlast : c ∈ e.cart ++ e.lastClosedCart :=
        List.mem_append_right _ (List.mem_of_mem_filter hc)
      -- a quantity of zero reads as absent, here and in the closed order
      have hold : orNum (some c.qty) 1 = 1 ∨ orNum (some c.qty) 1 = c.qty := by
        by_cases hz : c.qty = 0 <;> simp [orNum, hz]
      have hcase : orNum qo (orNum (some c.qty) 1) = orNum (some c.qty) 1 ∨
          ∃ n ∈ qo, orNum qo (orNum (some c.qty) 1) = n := by
        cases qo with
        | none => exact Or.inl rfl
        | some n =>
          by_cases hz : n = 0
          · exact Or.inl (by simp [orNum, hz])
          · exact Or.inr ⟨n, rfl, by simp [orNum, hz]⟩
      rcases hcase with hq | ⟨n, hn, hq⟩
      · rcases hold with h1 | h1
        · exact Or.inl (hq.trans h1)
        · exact Or.inr (Or.inr ⟨c, hlast, rfl, (hq.trans h1).symm⟩)
      · refine Or.inr (Or.inl ?_)
        show N (orNum qo (orNum (some c.qty) 1))
        rw [hq]
        exact hop n hn
  | modificar code name modo valor b vn =>
    simp only [apertura] at h
    split at h
    · split at h
      · obtain rfl := Option.some.inj h
        exact absurd hl List.not_mem_nil
      · cases h
    · cases h
  | _ => cases h

theorem paso_propuestas (fm : Bool) (t : Trabajo) {op : Op} (hop : op.Contada N D citada) :
    ∀ v ∈ (paso fm t op).e.siNos, v ∈ t.e.siNos ∨ ∀ l ∈ v.items, l.qty = 1 ∨ N l.qty ∨
      ∃ k ∈ t.e.cart ++ t.e.lastClosedCart, k.code = l.code ∧ k.qty = l.qty := by
  intro v hv
  rw [paso_siNos] at hv
  split at hv
  · exact Or.inl (List.mem_of_mem_tail hv)
  · split at hv
    · exact Or.inr (apertura_lineas hop (Option.mem_toList.mp hv))
    · exact Or.inl hv

theorem Trabajo.add_cantidadGlobal (t : Trabajo) (code name brand : Texto) (qty : Option ℤ)
    (fuente aliasTexto : Texto) :
    (t.add code name brand qty fuente aliasTexto).cantidadGlobal = t.cantidadGlobal := by
  rcases t.add_cases code name brand qty fuente aliasTexto with
    ⟨ln, -, -, h⟩ | ⟨ln, q, -, -, -, h⟩ | ⟨-, h⟩
  all_goals rw [h]; rfl

theorem nuevaSiNo_cantidadGlobal (t : Trabajo) (v : Propuesta) (titulo : Titulo) :
    (t.nuevaSiNo v titulo).1.cantidadGlobal = t.cantidadGlobal := by
  rcases t.nuevaSiNo_cases v titulo with ⟨w, -, h⟩ | ⟨-, h⟩
  all_goals rw [h]; rfl

theorem ejecuta_cantidadGlobal (t : Trabajo) (v : Propuesta) :
    (ejecuta t v).cantidadGlobal = t.cantidadGlobal := by
  unfold ejecuta
  cases v.tipo with
  | cierre =>
    refine foldl_component (f := Trabajo.cantidadGlobal) _ (fun t p _ => ?_) t
    rfl
  | baja => dsimp only; split <;> rfl
  | media =>
    exact foldl_component (f := Trabajo.cantidadGlobal) _ (fun t _ _ => t.add_cantidadGlobal ..) t
  | repetir =>
    exact foldl_component (f := Trabajo.cantidadGlobal) _ (fun t _ _ => t.add_cantidadGlobal ..) t

/-- Only one kind of operation sets the global quantity. -/
theorem paso_cantidadGlobal (fm : Bool) (t : Trabajo) (op : Op) :
    (paso fm t op).cantidadGlobal = t.cantidadGlobal ∨
      ∃ n, op = .cantidadGlobal (some n) ∧ (paso fm t op).cantidadGlobal = some n := by
  cases op with
  | cantidadGlobal valor =>
    simp only [paso]
    split
    · split
      · exact Or.inl rfl
      · exact Or.inr ⟨_, rfl, rfl⟩
    · exact Or.inl rfl
  | add code name brand qty fuente =>
    left
    cases fm with
    | true => rfl
    | false => exact t.add_cantidadGlobal ..
  | modificar code name modo valor b vn =>
    left
    by_cases hm : modo = .eliminar
    · simp only [paso, hm, if_true]
      split
      · rfl
      · split <;> rfl
    · simp only [paso, hm, if_false]
      rcases t.setQty_cases code name modo valor with
        ⟨-, h⟩ | ⟨ln, -, -, h⟩ | ⟨ln, w, -, -, h⟩ | ⟨ln, -, -, h⟩ | ⟨ln, q, -, h⟩
      all_goals rw [h]; rfl
  | opciones texto qty ops ind =>
    left
    simp only [paso]
    split <;> split <;> rfl
  | sinCandidatos texto qty =>
    left
    simp only [paso]
    split <;> rfl
  | rechazo objetivo =>
    left
    simp only [paso]
    split <;> rfl
  | elige itemTexto code name brand fuente =>
    left
    simp only [paso]
    split
    · exact Trabajo.add_cantidadGlobal ..
    · exact Trabajo.add_cantidadGlobal ..
  | eligeQty code valor =>
    left
    simp only [paso]
    split
    · rfl
    · split
      · split <;> rfl
      · rfl
  | repetirUltimo qo =>
    left
    simp only [paso]
    split
    · rfl
    · exact nuevaSiNo_cantidadGlobal ..
  | cerrar =>
    left
    simp only [paso]
    split
    · rfl
    · exact nuevaSiNo_cantidadGlobal ..
  | confirmar =>
    left
    simp only [paso]
    split
    · rfl
    · exact ejecuta_cantidadGlobal ..
  | negar =>
    left
    simp only [paso]
    split <;> rfl
  | otro subtipo =>
    left
    cases subtipo with
    | noSabe =>
      simp only [paso, pasoOtro]
      split
      · rfl
      · refine foldl_component (f := Trabajo.cantidadGlobal) _ (fun t p _ => ?_) t
        rfl
    | _ => rfl
  | codigoNoExiste code => exact Or.inl rfl
  | referenciaAmbigua texto candidatas => exact Or.inl rfl

/-- Only an `add` of a media turn is set aside. -/
theorem paso_mediaBatch (fm : Bool) (t : Trabajo) (op : Op) :
    (paso fm t op).mediaBatch = t.mediaBatch ∨
      ∃ code name brand qty fuente, op = .add code name brand qty fuente ∧
        (paso fm t op).mediaBatch = t.mediaBatch ++ [(code, name, qty, fuente)] := by
  generalize hpaso : paso fm t op = t'
  have hef : Efecto t op t' := hpaso ▸ paso_efecto fm t op
  cases hef with
  | aparta brand hop => exact Or.inr ⟨_, _, brand, _, _, hop, rfl⟩
  | quieto hq => exact Or.inl hq.mediaBatch
  | dice => exact Or.inl rfl
  | add name brand fuente al hu hop =>
    exact Or.inl ((Trabajo.add_mediaBatch ..).trans hu.mediaBatch)
  | fija name hu hln hop => exact Or.inl hu.mediaBatch
  | nueva name hu hln hop hq => exact Or.inl hu.mediaBatch
  | borra name hu hop => exact Or.inl hu.mediaBatch
  | lineas fuente hu hop hv ht => exact Or.inl ((addLineas_mediaBatch ..).trans hu.mediaBatch)
  | cierra hu hop hv ht rs => exact Or.inl hu.mediaBatch

/-- The numbers that pass 2 will use are accounted for. -/
structure Trabajo.Contado (N : ℤ → Prop) (t : Trabajo) : Prop where
  global : ∀ n ∈ t.cantidadGlobal, N n
  media : ∀ x ∈ t.mediaBatch, ∀ n ∈ x.2.2.1, N n

theorem paso_contado (fm : Bool) (t : Trabajo) {op : Op} (hop : op.Contada N D citada)
    (ht : t.Contado N) : (paso fm t op).Contado N := by
  constructor
  · intro n hn
    rcases paso_cantidadGlobal fm t op with h | ⟨m, rfl, h⟩
    all_goals rw [h] at hn
    · exact ht.global n hn
    · exact hop n hn
  · intro x hx
    rcases paso_mediaBatch fm t op with h | ⟨code, name, brand, qty, fuente, rfl, h⟩
    all_goals rw [h] at hx
    · exact ht.media x hx
    · rcases List.mem_append.mp hx with hx | hx
      · exact ht.media x hx
      · obtain rfl := List.mem_singleton.mp hx
        exact hop

theorem tras_contado {fm : Bool} {e : Estado} {g : Option ℤ} {ops : List Op} (hg : ∀ n ∈ g, N n)
    (hops : ∀ op ∈ ops, op.Contada N D citada) : (tras fm e g ops).Contado N :=
  foldl_keeps (P := fun t : Trabajo => t.Contado N) ops
    (fun t op hop ht => paso_contado fm t (hops op hop) ht) ⟨hg, by simp [inicio]⟩

/-! ## Pass 2 -/

theorem regla11Lineas_mem {g : ℤ} {codes : List Texto} {t : Trabajo} {l : Linea}
    (h : l ∈ (codes.foldl (regla11Linea g) t).e.cart) : l ∈ t.e.cart ∨ l.qty = g := by
  refine foldl_keeps (P := fun u : Trabajo => ∀ l ∈ u.e.cart, l ∈ t.e.cart ∨ l.qty = g) codes ?_
    (fun l hl => Or.inl hl) l h
  intro u c _ hu l hl
  unfold regla11Linea at hl
  split at hl
  · exact hu l hl
  · rcases mem_ponQty hl with hl | ⟨-, hq⟩
    · exact hu l hl
    · exact Or.inr hq

theorem pase2_lineas {t : Trabajo} {l : Linea} (h : l ∈ (pase2 t).e.cart) :
    l ∈ t.e.cart ∨ l.qty ∈ t.cantidadGlobal := by
  have hcart : l ∈ (regla11 (regla3 (reglaMedia t))).e.cart := h
  have hg : (regla3 (reglaMedia t)).cantidadGlobal = t.cantidadGlobal := by
    rw [regla3_cantidadGlobal, (reglaMedia_frame t).2.2]
  have hthree : (regla3 (reglaMedia t)).e.cart ⊆ t.e.cart := by
    rw [regla3, regla3_cart, reglaMedia_cart]
    exact List.filter_subset_self _
  unfold regla11 at hcart
  rw [hg] at hcart
  cases hglobal : t.cantidadGlobal with
  | none =>
    rw [hglobal] at hcart
    exact Or.inl (hthree hcart)
  | some g =>
    rw [hglobal] at hcart
    rcases regla11Lineas_mem hcart with hl | hl
    · exact Or.inl (hthree hl)
    · exact Or.inr (congrArg some hl.symm)

theorem pase2_pendientes (t : Trabajo) :
    ∀ x ∈ (pase2 t).e.pendientes, x ∈ t.e.pendientes ∨ ∀ n ∈ x.2, n ∈ t.cantidadGlobal := by
  -- an item is followed back to the end of pass 1
  have hfrom {p : Producto} {q : Option ℤ} (hi : Item.producto p ∈ t.e.openItems)
      (hq : q = p.qty ∨ ∃ v, t.cantidadGlobal = some v ∧ q = some v) :
      (p.texto, q) ∈ t.e.pendientes ∨ ∀ n ∈ q, n ∈ t.cantidadGlobal := by
    rcases hq with rfl | ⟨v, hv, rfl⟩
    · have hp : p ∈ t.e.productosAbiertos := List.mem_filterMap.mpr ⟨_, hi, rfl⟩
      exact Or.inl (List.mem_append_left _ (List.mem_map.mpr ⟨p, hp, rfl⟩))
    · right
      intro n hn
      rw [hv]
      exact hn
  intro x hx
  rcases List.mem_append.mp hx with hx | hx
  · obtain ⟨p, hp, rfl⟩ := List.mem_map.mp hx
    obtain ⟨i, hi, hip⟩ := List.mem_filterMap.mp hp
    obtain rfl := (producto?_eq_some i p).mp hip
    rcases pase2_abre hi with ⟨j, hj, hs⟩ | ⟨v, hv⟩ | ⟨c, hc⟩
    · cases hs with
      | igual => exact hfrom hj (Or.inl rfl)
      | producto ht ho hq =>
        rw [ht]
        exact hfrom hj hq
    · cases hv
    · cases hc
  · obtain ⟨i, hi, hix⟩ := List.mem_filterMap.mp hx
    rcases pase2_abre hi with ⟨j, hj, hs⟩ | ⟨v, rfl⟩ | ⟨c, rfl⟩
    · cases hs with
      | igual => exact Or.inl (List.mem_append_right _ (List.mem_filterMap.mpr ⟨i, hj, hix⟩))
      | producto ht ho hq => cases hix
      | agotado hq =>
        obtain rfl := Option.some.inj hix
        exact hfrom hj hq
    · cases hix
    · cases hix

theorem pase2_propuestas {t : Trabajo} (ht : t.Contado N) :
    ∀ v ∈ (pase2 t).e.siNos, v ∈ t.e.siNos ∨ ∀ l ∈ v.items, l.qty = 1 ∨ N l.qty := by
  intro v hv
  rw [pase2_siNos, reglaMedia_siNos] at hv
  split at hv
  · split at hv
    · exact absurd hv List.not_mem_nil
    · obtain rfl := List.mem_singleton.mp hv
      right
      intro l hl
      obtain ⟨⟨code, name, qty, fuente⟩, hx, rfl⟩ := List.mem_map.mp hl
      cases qty with
      | none => exact Or.inl rfl
      | some q => exact Or.inr (ht.media _ hx q rfl)
  · exact Or.inl hv

end Reducer

/-! ## Numbers of the acts -/

section Turn

variable {U : Unicode} {E : Entorno} {s : Sesion} {mensaje : Texto} {extraccion : Option Json}

/-- Every number of an act is accounted for. -/
structure Acto.Contado (N : ℤ → Prop) (a : Acto) : Prop where
  cantidad : ∀ n ∈ a.cantidad.valor, N n
  valor : a.tipo = .cantidadGlobal → ∀ n ∈ a.valor, N n

theorem sinCantidad_contado (N : ℤ → Prop) {a : Acto} (hc : a.cantidad.valor = none)
    (hv : a.valor = none) : a.Contado N := by
  constructor
  · rw [hc]
    simp
  · rw [hv]
    simp

theorem compruebaNumeros_contado {flat : Texto} (a : Acto) :
    (compruebaNumeros U flat a).Contado
      fun n => n ∈ numerosEn U (Texto.orElse (aplana U a.evidencia) flat) := by
  unfold compruebaNumeros
  dsimp only
  generalize numerosEn U (Texto.orElse (aplana U a.evidencia) flat) = nums
  -- the quantity, the global value and the empty quantity are checked one after the other
  generalize hb : (if a.cantidad.valor.any fun v => decide (v ∉ nums) then
    { a with cantidad := {} } else a) = b
  have hcant : ∀ n ∈ b.cantidad.valor, n ∈ nums := by
    intro n hn
    rw [← hb] at hn
    split at hn
    · cases hn
    · next hany =>
      by_contra hnot
      apply hany
      rw [hn]
      simpa using hnot
  generalize hd : (if b.tipo = .cantidadGlobal ∧ b.valor.any (fun v => decide (v ∉ nums)) then
    { b with valor := none } else b) = d
  have hd' : (∀ n ∈ d.cantidad.valor, n ∈ nums) ∧
      (d.tipo = .cantidadGlobal → ∀ n ∈ d.valor, n ∈ nums) := by
    rw [← hd]
    split
    · exact ⟨hcant, fun _ n hn => nomatch hn⟩
    · next hany =>
      refine ⟨hcant, fun ht n hn => ?_⟩
      by_contra hnot
      apply hany
      refine ⟨ht, ?_⟩
      rw [hn]
      simpa using hnot
  split
  · exact ⟨fun n hn => (nomatch hn), hd'.2⟩
  · exact ⟨hd'.1, hd'.2⟩

theorem limpiaEvidencia_contains (flat : Texto) (a : Acto) :
    Texto.contains flat (aplana U (limpiaEvidencia U flat a).evidencia) := by
  unfold limpiaEvidencia
  dsimp only
  split
  · have hnil : aplana U [] = [] := U.lower_nil
    rw [hnil]
    exact (contains_iff flat []).mpr (List.nil_infix)
  · next hno =>
    by_contra hc
    apply hno
    have hne : (aplana U a.evidencia).isEmpty = false := by
      rw [Bool.eq_false_iff]
      intro hempty
      rw [List.isEmpty_iff.mp hempty] at hc
      exact hc ((contains_iff flat []).mpr (List.nil_infix))
    rw [Bool.eq_false_of_not_eq_true hc, hne]
    rfl

theorem compruebaNumeros_evidencia (flat : Texto) (a : Acto) :
    (compruebaNumeros U flat a).evidencia = a.evidencia := by
  unfold compruebaNumeros
  dsimp only
  split_ifs <;> rfl

theorem marcaEliminar_evidencia (a : Acto) : (marcaEliminar U a).evidencia = a.evidencia := by
  unfold marcaEliminar
  split <;> rfl

theorem reinterpreta_evidencia (flat : Texto) (a : Acto) : (reinterpreta U flat a).evidencia = a.evidencia := by
  unfold reinterpreta
  dsimp only
  split_ifs <;> rfl

theorem marcaEliminar_contado {N : ℤ → Prop} {a : Acto} (h : a.Contado N) :
    (marcaEliminar U a).Contado N := by
  unfold marcaEliminar
  split
  · exact ⟨h.cantidad, h.valor⟩
  · exact h

theorem reinterpreta_contado {N : ℤ → Prop} {a : Acto} (flat : Texto) (h : a.Contado N) :
    (reinterpreta U flat a).Contado N := by
  unfold reinterpreta
  dsimp only
  generalize hb : (if a.tipo = .otro ∧ a.subtipo = none then
    { a with subtipo := some .fueraAmbito } else a) = b
  have hb' : b.Contado N := by
    rw [← hb]
    split
    · exact ⟨h.cantidad, h.valor⟩
    · exact h
  split
  · exact sinCantidad_contado N rfl rfl
  · exact hb'

/-- The numbers of an act that passes the filter are those of its evidence, which stands in the text, or of the text. -/
theorem validarActos_contado {actos : List Acto} {texto : Texto} {a : Acto}
    (h : a ∈ validarActos U actos texto) : Texto.contains (aplana U texto) (aplana U a.evidencia) ∧
      a.Contado fun n => n ∈ numerosEn U (Texto.orElse (aplana U a.evidencia) (aplana U texto)) := by
  obtain ⟨b, -, hb⟩ := List.mem_filterMap.mp h
  dsimp only at hb
  split at hb
  · obtain rfl := Option.some.inj hb
    rw [reinterpreta_evidencia, marcaEliminar_evidencia, compruebaNumeros_evidencia]
    refine ⟨limpiaEvidencia_contains _ b, ?_⟩
    apply reinterpreta_contado
    apply marcaEliminar_contado
    exact compruebaNumeros_contado _
  · cases hb

/-! ## Numbers of a turn -/

theorem numeroEscrito_of_lectura {r : Texto} {n : ℤ} (hr : r ∈ lecturas U mensaje)
    (hn : n ∈ numerosEn U r) : NumeroEscrito U mensaje extraccion n :=
  .inl ⟨r, List.mem_cons_of_mem _ hr, hn⟩

/-- What an accepted act carries is a number of its evidence, or of the text where it quotes none. -/
theorem numeroEscrito_of_acto {a : Acto} {n : ℤ} (h : a ∈ actosAceptados U mensaje extraccion)
    (hcarried : a.cantidad.valor = some n ∨ a.valor = some n)
    (hin : Texto.contains (aplana U (preprocesar U mensaje).texto) (aplana U a.evidencia))
    (hn : n ∈ numerosEn U (Texto.orElse (aplana U a.evidencia) (aplana U (preprocesar U mensaje).texto))) :
    NumeroEscrito U mensaje extraccion n := by
  unfold Texto.orElse at hn
  split at hn
  · exact .inl ⟨_, List.mem_cons_self, hn⟩
  · exact .inr ⟨a, h, hcarried, hin, hn⟩

theorem actosAceptados_validados {a : Acto} (h : a ∈ actosAceptados U mensaje extraccion) :
    ∃ actos, a ∈ validarActos U actos (preprocesar U mensaje).texto := by
  unfold actosAceptados comprende at h
  dsimp only at h
  split at h
  · next actos hablar hok =>
    split at hok
    · cases hok
      exact absurd h List.not_mem_nil
    · unfold extraer at hok
      split at hok
      · cases hok
      · obtain ⟨as, -, hok⟩ := bind_eq_ok hok
        cases hok
        exact ⟨as, h⟩
  · exact absurd h List.not_mem_nil

theorem actosAceptados_contado {a : Acto} (h : a ∈ actosAceptados U mensaje extraccion) :
    a.Contado (NumeroEscrito U mensaje extraccion) := by
  obtain ⟨actos, hvalid⟩ := actosAceptados_validados h
  obtain ⟨hin, hcant, hval⟩ := validarActos_contado hvalid
  exact ⟨fun n hn => numeroEscrito_of_acto h (.inl hn) hin (hcant n hn),
    fun ht n hn => numeroEscrito_of_acto h (.inr hn) hin (hval ht n hn)⟩

/-- Every number of an act of the turn is written in the message. -/
theorem actosDelTurno_contado {e : Estado} {actos : List Acto} {hablar : Bool} {a : Acto}
    (h : actosDelTurno U e mensaje extraccion = .ok (some actos, hablar)) (ha : a ∈ actos) :
    a.Contado (NumeroEscrito U mensaje extraccion) := by
  rcases actosDelTurno_mem h ha with ⟨r, hr, rfl⟩ | ha | ha
  · obtain ⟨ln, hln, rfl⟩ := mem_pedidos hr
    constructor
    · intro n hn
      have hq : (parseLineaPedido U ln).2 = some n := by
        cases hp : (parseLineaPedido U ln).2 with
        | none => simp [actoDeLista, hp] at hn
        | some q => simpa [actoDeLista, hp] using hn
      exact numeroEscrito_of_lectura (List.mem_cons_of_mem _ hln) (parseLineaPedido_qty hq)
    · intro ht
      cases ht
  · exact actosAceptados_contado ha
  · rcases List.mem_append.mp ha with ha | ha
    all_goals obtain ⟨x, -, rfl⟩ := List.mem_map.mp ha
    · exact sinCantidad_contado _ rfl rfl
    · exact sinCantidad_contado _ rfl rfl

theorem peticiones_contado {N : ℤ → Prop} {e : Estado} {actos : List Acto} {b : Acto}
    (hactos : ∀ a ∈ actos, a.Contado N) (h : b ∈ peticiones U e actos) :
    ∀ n ∈ b.cantidad.valor, N n := by
  obtain ⟨a, ha, ⟨-, rfl⟩ | ⟨-, -, rfl⟩⟩ := peticiones_mem h
  · exact (hactos _ ha).cantidad
  · exact (hactos a ha).cantidad

/-- The quantity of a product that the resolver may have counted again. -/
theorem dicha_of_recontados {e : Estado} {actos : List Acto} {prods : List Producto} {q : Producto}
    {n : ℤ} (hactos : ∀ a ∈ actos, a.Contado (NumeroEscrito U mensaje extraccion))
    (hrec : Recontados (· ∈ peticiones U e actos) e.productosAbiertos prods) (hq : q ∈ prods)
    (hn : q.qty = some n) : Dicha U mensaje extraccion e n := by
  obtain ⟨p, hp, x, rfl, hx | ⟨a, v, ha, hv, hx⟩⟩ := recontados_mem hrec hq
  · exact Or.inr ⟨p, hp, hx ▸ hn⟩
  · refine Or.inl (peticiones_contado hactos ha n ?_)
    rw [hv, ← hx]
    exact hn

/-- The digits of a quoted answer are a number of the message. -/
theorem respuesta_escrita {t : Texto} {n : ℤ} (hd : U.isdigit (strip t))
    (hn : U.intOf (strip t) = some n) (hdec : ∀ c ∈ strip t, U.isDecimal c)
    (hspan : ∃ r ∈ lecturas U mensaje, Acotado (fun c => !U.isDecimal c) (strip t) r) :
    NumeroEscrito U mensaje extraccion n := by
  have hne : strip t ≠ [] := by
    intro h
    rw [h] at hd
    simp [Unicode.isdigit] at hd
  rw [Unicode.intOf_of_decimal hne hdec] at hn
  obtain rfl := Option.some.inj hn
  obtain ⟨r, hr, hc⟩ := hspan
  exact numeroEscrito_of_lectura hr (mem_numerosEn_of_acotado hc hne hdec)

theorem Origen.contada {e : Estado} {actos : List Acto} {prods : List Producto} {qs : List Texto}
    {op : Op} {citada : Prop} (h : Origen U E e actos prods qs op)
    (hactos : ∀ a ∈ actos, a.Contado (NumeroEscrito U mensaje extraccion))
    (hrec : Recontados (· ∈ peticiones U e actos) e.productosAbiertos prods)
    (hcit : citada → ∀ a ∈ actos, ∀ t, a.respuesta? = some t → U.isdigit (strip t) →
      (∀ c ∈ strip t, U.isDecimal c) ∧ ∃ r ∈ lecturas U mensaje, Acotado (fun c => !U.isDecimal c) (strip t) r) :
    op.Contada (NumeroEscrito U mensaje extraccion) (Dicha U mensaje extraccion e) citada := by
  have hpet {a : Acto} (ha : a ∈ consultas U e actos) :
      ∀ n ∈ a.cantidad.valor, NumeroEscrito U mensaje extraccion n :=
    peticiones_contado hactos (List.mem_of_mem_filter ha)
  have hqty {a : Acto} (ha : a ∈ consultas U e actos) (item : Option ℕ) :
      ∀ n ∈ Peticion.qty prods ⟨a, item⟩, Dicha U mensaje extraccion e n := by
    intro n hn
    unfold Peticion.qty at hn
    dsimp only at hn
    cases hv : a.cantidad.valor with
    | some v =>
      rw [hv] at hn
      obtain rfl := Option.some.inj hn
      exact Or.inl (hpet ha v hv)
    | none =>
      rw [hv] at hn
      obtain ⟨q, hq, hqn⟩ := Option.bind_eq_some_iff.mp hn
      obtain ⟨i, -, hi⟩ := Option.bind_eq_some_iff.mp hq
      exact dicha_of_recontados hactos hrec (List.mem_of_getElem? hi) hqn
  cases h with
  | responde ha ht hd hn hc hq =>
    intro h
    obtain ⟨hdec, hspan⟩ := hcit h _ ha _ ht hd
    exact respuesta_escrita hd hn hdec hspan
  | modifica ha ht hl => exact (hactos _ ha).cantidad
  | opcionViva => trivial
  | tecleado ha hc hl hr => exact hpet ha
  | hallado ha hs hq ho => exact hpet ha
  | halladoPara => trivial
  | ofrece ha hs hq hops => exact hqty ha _
  | sinCandidatos ha => exact hqty ha _
  | global ha ht => exact (hactos _ ha).valor ht
  | repite ha ht =>
    intro n hn
    split at hn
    · exact (hactos _ ha).cantidad n hn
    · cases hn
  | dice hd => cases op <;> simp_all [Op.Contada, Op.sinDatos]

/-! ## The turn -/

theorem cumple_refl (R : Norma) (op : Option Op) (e : Estado) : R.Cumple op e e :=
  ⟨fun _ hl => Or.inl (conserva_of_mem hl), fun _ hx => Or.inl hx, fun _ hv => Or.inl hv⟩

/-- The resolver changes the quantities of open products only. -/
theorem recuento_cumple {e : Estado} {actos : List Acto} {prods : List Producto}
    (hactos : ∀ a ∈ actos, a.Contado (NumeroEscrito U mensaje extraccion))
    (hrec : Recontados (· ∈ peticiones U e actos) e.productosAbiertos prods) :
    (escritasOHeredadas U e mensaje extraccion).Cumple none e
      { e with openItems := conProductos e.openItems prods } := by
  have hview := recontado hrec
  refine ⟨fun l hl => Or.inl (conserva_of_mem hl), ?_, ?_⟩
  · intro x hx
    rcases List.mem_append.mp hx with hx | hx
    · obtain ⟨q, hq, rfl⟩ := List.mem_map.mp hx
      have hq' : q ∈ prods := hview.productos ▸ hq
      exact Or.inr fun n hn => dicha_of_recontados hactos hrec hq' hn
    · exact Or.inl (List.mem_append_right _ (hview.aRevisar ▸ hx))
  · intro v hv
    exact Or.inl (hview.siNos ▸ hv)

/-- The reducer keeps the rule, one operation after another. -/
theorem aplicar_cumple {e : Estado} {t : Turno} (hg : ∀ n ∈ t.cantidadGlobal, NumeroEscrito U mensaje extraccion n)
    (hops : ∀ op ∈ t.ops, op.Contada (NumeroEscrito U mensaje extraccion) (Dicha U mensaje extraccion e)
      (RespuestasCitadas U e mensaje extraccion))
    (hrec : (escritasOHeredadas U e mensaje extraccion).Cumple none e t.estado) :
    (escritasOHeredadas U e mensaje extraccion).EnTurno e t := by
  refine ⟨hrec, ?_, ?_⟩
  · intro xs op ys hsplit
    have hop := hops op (by rw [hsplit]; simp)
    unfold Turno.tras
    rw [tras_concat]
    exact ⟨paso_lineas _ _ hop, paso_pendientes _ _ hop, paso_propuestas _ _ hop⟩
  · have hcont : (t.tras t.ops).Contado (NumeroEscrito U mensaje extraccion) := tras_contado hg hops
    rw [Turno.resultado, aplicar_estado]
    refine ⟨?_, ?_, ?_⟩
    · intro l hl
      rcases pase2_lineas hl with hl | hl
      · exact Or.inl (conserva_of_mem hl)
      · exact Or.inr (.norma (.escrita (hcont.global _ hl)))
    · intro x hx
      refine (pase2_pendientes _ x hx).imp_right fun h n hn => ?_
      exact Or.inl (hcont.global n (h n hn))
    · intro v hv
      refine (pase2_propuestas hcont v hv).imp_right fun h l hl => ?_
      exact (h l hl).imp_right Or.inl

/-- A product asked with its quantity in an earlier turn, with two options. -/
def serumAbierto : Sesion where
  orderStatus := .building
  openItems := [.tipado (.producto { texto := "serum", qty := some 6, opciones :=
    [⟨"SN200", "SERUM NOCHE 30ML", "ROC", "catalogo", [], []⟩,
      ⟨"SD100", "SERUM DIA 30ML", "ROC", "catalogo", [], []⟩] })]

end Turn

end Chatlink.Agent
