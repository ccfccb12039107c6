import Chatlink.Agent.Confirmation
import Chatlink.Agent.Lines
import Chatlink.Agent.TurnSteps

/-!
# Where the codes of the cart come from

A code may enter the cart from the session, from a hit of the search for words of the
client, or because the client typed it and the catalogue has it. The filter of the
acts reads neither `producto_texto` nor `objetivo_texto`, so the extraction can name a
product the client never wrote. The rule holds in every turn whose looked-up texts
are in the message.
-/
namespace Chatlink.Agent

open Lists Texto

/-! ## What the client wrote -/

/-- The message, and its lines as stage 0 reads them: a repetition mark stands for the
words of the line above. -/
def lecturas (U : Unicode) (mensaje : Texto) : List Texto := mensaje :: lineasLeidas U mensaje

/-- The text is a span of the message, up to white space and case. -/
def Escrito (U : Unicode) (mensaje t : Texto) : Prop :=
  Texto.contains (aplana U mensaje) (aplana U t) ∨ ∃ s ∈ lecturas U mensaje, Texto.contains s t

instance (U : Unicode) (mensaje t : Texto) : Decidable (Escrito U mensaje t) :=
  inferInstanceAs (Decidable (_ ∨ _))

/-- The code is a token of the message: no letter or digit touches it. -/
def Tecleado (U : Unicode) (mensaje c : Texto) : Prop :=
  ∃ s ∈ lecturas U mensaje, Acotado noAlfanum c s

/-! ## What the session knows -/

def Item.codes : Item → List Texto
  | .producto p => p.opciones.map Opcion.code
  | .revisar _ _ => []
  | .conflicto c => [c.code]
  | .siNo v => v.code :: v.codes

/-- The codes of the cart, the open items and the last closed cart. -/
def Estado.conocidos (e : Estado) : List Texto :=
  e.codes ++ e.openItems.flatMap Item.codes ++ e.lastClosedCart.map Linea.code

/-- Where a code of the cart may come from. -/
inductive Procede (U : Unicode) (E : Entorno) (s : Sesion) (mensaje : Texto) : Texto → Prop
  | conocido {c : Texto} (h : c ∈ (Estado.fromSession s).conocidos) : Procede U E s mensaje c
  | hallado {c : Texto} {qs : List Texto} {q : Texto} {h : Hit} (hq : q ∈ qs)
      (hh : h ∈ E.search qs q) (hc : h.codigoArticulo = c) (hw : Escrito U mensaje q) :
      Procede U E s mensaje c
  | tecleado {c : Texto} {lookup : List Texto → Texto → Option Articulo} {codes : List Texto}
      {row : Articulo} (hl : E.codeLookup = some lookup) (hr : lookup codes c = some row)
      (hw : Tecleado U mensaje c) : Procede U E s mensaje c

/-- Every code of the cart that the turn returns comes from somewhere. -/
def NeverInventsCode (U : Unicode) (E : Entorno) (s : Sesion) (mensaje : Texto)
    (extraccion : Option Json) : Prop :=
  ∀ intro resume r, runAgent U E s mensaje extraccion intro resume = .ok r →
    ∀ c ∈ r.estado.codes, Procede U E s mensaje c

/-! ## Codes through the reducer -/

section Reducer

variable {fm : Bool} {e : Estado} {g : Option ℤ}

theorem Trabajo.add_lastClosedCart (t : Trabajo) (code name brand : Texto) (qty : Option ℤ)
    (fuente aliasTexto : Texto) :
    (t.add code name brand qty fuente aliasTexto).e.lastClosedCart = t.e.lastClosedCart := by
  rcases t.add_cases code name brand qty fuente aliasTexto with
    ⟨ln, -, -, h⟩ | ⟨ln, q, -, -, -, h⟩ | ⟨-, h⟩
  all_goals rw [h]; rfl

theorem paso_lastClosedCart (t : Trabajo) (op : Op) :
    (paso fm t op).e.lastClosedCart = t.e.lastClosedCart := by
  generalize hp : paso fm t op = t'
  have hef : Efecto t op t' := hp ▸ paso_efecto fm t op
  cases hef with
  | quieto hq => exact hq.lastClosedCart
  | aparta => rfl
  | dice => rfl
  | add name brand fuente al hu hop => exact (Trabajo.add_lastClosedCart ..).trans hu.lastClosedCart
  | fija name hu hln hop => exact hu.lastClosedCart
  | nueva name hu hln hop hq => exact hu.lastClosedCart
  | borra name hu hop => exact hu.lastClosedCart
  | lineas fuente hu hop hv ht =>
    refine Eq.trans ?_ hu.lastClosedCart
    exact foldl_component (f := fun t : Trabajo => t.e.lastClosedCart) _
      (fun t l _ => t.add_lastClosedCart ..) _
  | cierra hu hop hv ht rs => exact hu.lastClosedCart

theorem tras_lastClosedCart (ops : List Op) :
    (tras fm e g ops).e.lastClosedCart = e.lastClosedCart := by
  induction ops using List.reverseRecOn with
  | nil => rfl
  | append_singleton ops op ih => rw [tras_concat, paso_lastClosedCart, ih]

/-- A proposal opened in a turn has lines of the last closed cart, if any that a
confirmation would add. -/
theorem apertura_codes {op : Op} {v : Propuesta} (h : apertura e op = some v)
    (ht : v.tipo.deLineas) : ∀ c ∈ v.codes, c ∈ e.lastClosedCart.map Linea.code := by
  cases op with
  | cerrar =>
    simp only [apertura] at h
    split at h
    · cases h
    · obtain rfl := Option.some.inj h
      cases ht
  | repetirUltimo qo =>
    simp only [apertura] at h
    split at h
    · cases h
    · obtain rfl := Option.some.inj h
      intro c hc
      simp only [Propuesta.codes, List.map_map] at hc
      obtain ⟨l, hl, rfl⟩ := List.mem_map.mp hc
      exact List.mem_map.mpr ⟨l, (List.mem_filter.mp hl).1, rfl⟩
  | modificar code name modo valor b vn =>
    simp only [apertura] at h
    split at h
    · split at h
      · obtain rfl := Option.some.inj h
        cases ht
      · cases h
    · cases h
  | _ => cases h

/-- The codes of every live proposal with lines were known when the turn began. -/
theorem tras_siNos_codes (ops : List Op) :
    ∀ v ∈ (tras fm e g ops).e.siNos, v.tipo.deLineas → ∀ c ∈ v.codes, c ∈ e.conocidos := by
  induction ops using List.reverseRecOn with
  | nil =>
    intro v hv _ c hc
    obtain ⟨i, hi, hiv⟩ := List.mem_filterMap.mp hv
    obtain rfl := (siNo?_eq_some i v).mp hiv
    apply List.mem_append_left
    apply List.mem_append_right
    exact List.mem_flatMap.mpr ⟨_, hi, List.mem_cons_of_mem _ hc⟩
  | append_singleton ops op ih =>
    intro v hv ht c hc
    rw [tras_concat, paso_siNos] at hv
    split at hv
    · exact ih v (List.mem_of_mem_tail hv) ht c hc
    · split at hv
      · have hopen := Option.mem_toList.mp hv
        have hlast := apertura_codes hopen ht c hc
        rw [tras_lastClosedCart] at hlast
        exact List.mem_append_right _ hlast
      · exact ih v hv ht c hc

/-- The codes of the cart after a turn were known before it, or an operation names them. -/
theorem aplicar_codes (ops : List Op) {c : Texto} (h : c ∈ (aplicar e ops fm g).estado.codes) :
    c ∈ e.conocidos ∨ ∃ op ∈ ops, op.codigo? = some c := by
  rw [aplicar_estado] at h
  rcases tras_codes ops (pase2_codes _ h) with h | h | ⟨xs, ys, v, -, hv, ht, hc⟩
  · exact Or.inl (List.mem_append_left _ (List.mem_append_left _ h))
  · exact Or.inr h
  · obtain ⟨vs, hvs⟩ := siNoVivo_eq_some.mp hv
    exact Or.inl (tras_siNos_codes xs v (by rw [hvs]; exact List.mem_cons_self) ht c hc)

end Reducer

/-! ## Codes through the resolver -/

section Resolver

variable {U : Unicode} {E : Entorno} {s : Sesion} {mensaje : Texto} {extraccion : Option Json}

/-- What a request looks up is in the message: its text when it goes to the search, its
code when that is looked up by itself. -/
def Fundada (U : Unicode) (E : Entorno) (mensaje : Texto) (a : Acto) : Prop :=
  (buscada U E a → Escrito U mensaje a.productoTexto) ∧
    (¬ buscada U E a → ∀ c, codigoTecleado U a = some c → Tecleado U mensaje c)

/-- A row of the code lookup carries the code it was looked up by. -/
def FilasFieles (E : Entorno) : Prop :=
  ∀ lookup codes c row, E.codeLookup = some lookup → lookup codes c = some row →
    Texto.orElse row.code c = c

theorem conProductos_codes {P : Acto → Prop} {ps : List Producto} (items : List Item)
    (h : Recontados P (items.filterMap Item.producto?) ps) :
    (conProductos items ps).flatMap Item.codes = items.flatMap Item.codes := by
  induction items generalizing ps with
  | nil => rfl
  | cons i items ih =>
    cases i with
    | producto p =>
      cases h with
      | cons hp h =>
        obtain ⟨q, rfl, -⟩ := hp
        exact congrArg (p.opciones.map Opcion.code ++ ·) (ih h)
    | revisar texto qty => exact ih h
    | conflicto c => exact congrArg ([c.code] ++ ·) (ih h)
    | siNo v => exact congrArg (v.code :: v.codes ++ ·) (ih h)

/-- A code that an operation of the resolver names. -/
theorem Origen.procede {actos : List Acto} {prods : List Producto} {qs : List Texto} {op : Op}
    {c : Texto} (h : Origen U E (Estado.fromSession s) actos prods qs op)
    (hc : op.codigo? = some c)
    (hf : ∀ a ∈ consultas U (Estado.fromSession s) actos, Fundada U E mensaje a)
    (hrow : FilasFieles E) : Procede U E s mensaje c := by
  have hitem {i : Item} {c : Texto} (hi : i ∈ (Estado.fromSession s).openItems)
      (hc : c ∈ i.codes) : Procede U E s mensaje c := by
    apply Procede.conocido
    apply List.mem_append_left
    apply List.mem_append_right
    exact List.mem_flatMap.mpr ⟨i, hi, hc⟩
  have hprod {p : Producto} (hp : p ∈ (Estado.fromSession s).productosAbiertos) :
      Item.producto p ∈ (Estado.fromSession s).openItems := by
    obtain ⟨i, hi, hip⟩ := List.mem_filterMap.mp hp
    obtain rfl := (producto?_eq_some i p).mp hip
    exact hi
  cases h with
  | responde ha ht hd hn hcf hq =>
    obtain rfl := Option.some.inj hc
    obtain ⟨i, hi, hic⟩ := List.mem_filterMap.mp hcf
    obtain rfl := (conflicto?_eq_some i _).mp hic
    exact hitem hi (List.mem_singleton.mpr rfl)
  | opcionViva hp ho =>
    obtain rfl := Option.some.inj hc
    exact hitem (hprod hp) (List.mem_map.mpr ⟨_, ho, rfl⟩)
  | tecleado ha hcod hl hr =>
    obtain rfl := Option.some.inj hc
    rw [hrow _ _ _ _ hl hr]
    refine .tecleado hl hr ((hf _ ha).2 ?_ _ hcod)
    simp [buscada, hcod, hl]
  | hallado ha hs hq ho =>
    obtain rfl := Option.some.inj hc
    obtain ⟨-, h, hh, ho⟩ := ho
    exact .hallado hq hh ho.symm ((hf _ ha).1 hs)
  | halladoPara ha hs hq ho hp =>
    obtain rfl := Option.some.inj hc
    obtain ⟨-, h, hh, ho⟩ := ho
    exact .hallado hq hh ho.symm ((hf _ ha).1 hs)
  | dice hd => cases op <;> simp_all [Op.codigo?, Op.sinDatos]
  | modifica => cases hc
  | ofrece => cases hc
  | sinCandidatos => cases hc
  | global => cases hc
  | repite => cases hc

/-! ## The acts that code builds -/

theorem escrito_of_acotado {p : Char → Bool} {t x : Texto} (hx : x ∈ lecturas U mensaje)
    (h : Acotado p t x) : Escrito U mensaje t :=
  Or.inr ⟨x, hx, (contains_iff x t).mpr h.isInfix⟩

/-- A request whose text and evidence stand in one reading of the message. -/
theorem fundada_of_acotado {a : Acto} {x : Texto} (hx : x ∈ lecturas U mensaje)
    (ht : Acotado noAlfanum a.productoTexto x) (he : Acotado noAlfanum a.evidencia x) :
    Fundada U E mensaje a := by
  refine ⟨fun _ => escrito_of_acotado hx ht, ?_⟩
  intro _ c hc
  have hmono {t : Texto} (h : c ∈ codesInText U t) : Acotado noAlfanum c t :=
    (acotado_of_mem_codesInText h).mono noAlfanum_separador
  rcases codigoTecleado_mem hc with hc | hc
  · exact ⟨x, hx, (hmono hc).trans ht⟩
  · exact ⟨x, hx, (hmono hc).trans he⟩

theorem fundada_lista {r : Texto × Option ℤ × Texto} (hr : r ∈ (preprocesar U mensaje).pedidos) :
    Fundada U E mensaje (actoDeLista r) := by
  obtain ⟨ln, hln, rfl⟩ := mem_pedidos hr
  have hnombre : Acotado noAlfanum (parseLineaPedido U ln).1 ln := acotado_nombre ln
  -- how the line is read does not matter here
  generalize parseLineaPedido U ln = leida at hnombre ⊢
  exact fundada_of_acotado (List.mem_cons_of_mem _ hln) hnombre (acotado_strip noAlfanum_space ln)

/-- A bare number is always taken as the answer to a conflict. -/
theorem respuesta_numeroSuelto {e : Estado} {texto n : Texto} (h : numeroSuelto U texto e = some n) :
    ∃ op, respuestaConflicto U e.conflictos n = .ok (some op) := by
  unfold numeroSuelto at h
  dsimp only at h
  generalize hn : (if (strip texto).length ≤ 12 then
    texto.filter fun c => '0' ≤ c && c ≤ '9' else []) = limpio at h
  split at h
  · next hok =>
    obtain ⟨hdig, hoff⟩ := Bool.and_eq_true_iff.mp hok
    obtain rfl := Option.some.inj h
    have hdec : ∀ c ∈ limpio, U.isDecimal c := by
      intro c hc
      rw [← hn] at hc
      split at hc
      · have hasc : 48 ≤ c.toNat ∧ c.toNat ≤ 57 := by
          have hrange := (List.mem_filter.mp hc).2
          rw [Bool.and_eq_true_iff, decide_eq_true_iff, decide_eq_true_iff] at hrange
          exact hrange
        rw [Unicode.isDecimal, U.decimal_ascii c (by omega), if_pos hasc]
        rfl
      · exact absurd hc List.not_mem_nil
    have hne : limpio ≠ [] := by
      rintro rfl
      simp [Unicode.isdigit] at hdig
    have hstrip : strip limpio = limpio := by
      apply stripBy_eq_self
      intro c hc
      by_contra hsp
      have := hdec c hc
      rw [Unicode.isDecimal, U.decimal_space c (by simpa using hsp)] at this
      cases this
    obtain ⟨k, hk, hkn⟩ := List.any_eq_true.mp hoff
    have hnil : e.conflictos.isEmpty = false := by
      cases hcs : e.conflictos with
      | nil => rw [hcs] at hk; exact absurd hk List.not_mem_nil
      | cons => rfl
    unfold respuestaConflicto
    dsimp only
    rw [hstrip, hdig, hnil, Unicode.intOf_of_decimal hne hdec]
    cases hfind : e.conflictos.find? fun c => (U.numberOf limpio : ℤ) ∈ c.opcionesQty with
    | some c => exact ⟨.eligeQty c.code (U.numberOf limpio), by simp [hfind]⟩
    | none =>
      have := List.find?_eq_none.mp hfind k hk
      exact absurd (List.contains_iff_mem.mp hkn) (by simpa using this)
  · cases h

theorem fundada_salvado {e : Estado} {b : Acto}
    (h : b ∈ peticiones U e (actosSalvados U e mensaje)) : Fundada U E mensaje b := by
  obtain ⟨a, ha, hb⟩ := peticiones_mem h
  rcases List.mem_append.mp ha with ha | ha
  · obtain ⟨c, hc, rfl⟩ := List.mem_map.mp ha
    rcases hb with ⟨-, rfl⟩ | ⟨ht, -⟩
    · -- the code is a token of the message or of one of its lines
      have hx : ∃ x ∈ lecturas U mensaje, Acotado separador c x := by
        unfold Texto.orElse at hc
        split at hc
        · exact ⟨mensaje, List.mem_cons_self, acotado_of_mem_codesInText hc⟩
        · obtain ⟨ln, hln, hcl⟩ := acotado_of_mem_codes_texto hc
          exact ⟨ln, List.mem_cons_of_mem _ hln, hcl⟩
      obtain ⟨x, hx, hcx⟩ := hx
      have hcx' := hcx.mono noAlfanum_separador
      exact fundada_of_acotado hx hcx' hcx'
    · cases ht
  · obtain ⟨n, hn, rfl⟩ := List.mem_map.mp ha
    obtain ⟨op, hop⟩ := respuesta_numeroSuelto (Option.mem_toList.mp hn)
    rcases hb with ⟨ht, -⟩ | ⟨-, hres, -⟩
    · cases ht
    · rw [hop] at hres
      cases hres

/-! ## The turn -/

/-- Everything the extraction makes the turn look up is in the message, and the rows of
the code lookup carry the code they were looked up by. -/
structure LooksUpWritten (U : Unicode) (E : Entorno) (s : Sesion) (mensaje : Texto)
    (extraccion : Option Json) : Prop where
  requests : ∀ a ∈ consultas U (Estado.fromSession s) (actosAceptados U mensaje extraccion),
    Fundada U E mensaje a
  rows : FilasFieles E

theorem fundada_of_turno {actos : List Acto} {hablar : Bool}
    (hw : LooksUpWritten U E s mensaje extraccion)
    (h : actosDelTurno U (Estado.fromSession s) mensaje extraccion = .ok (some actos, hablar)) :
    ∀ a ∈ consultas U (Estado.fromSession s) actos, Fundada U E mensaje a := by
  intro a ha
  obtain ⟨hpet, hviva⟩ := List.mem_filter.mp ha
  obtain ⟨b, hb, hab⟩ := List.mem_flatMap.mp hpet
  have hone {bs : List Acto} (hbs : b ∈ bs) : a ∈ peticiones U (Estado.fromSession s) bs :=
    List.mem_flatMap.mpr ⟨b, hbs, hab⟩
  rcases actosDelTurno_mem h hb with ⟨r, hr, rfl⟩ | hb | hb
  · obtain ⟨x, hx, hxa⟩ := peticiones_mem (hone (List.mem_singleton.mpr rfl))
    obtain rfl := List.mem_singleton.mp hx
    rcases hxa with ⟨-, rfl⟩ | ⟨ht, -⟩
    · exact fundada_lista hr
    · cases ht
  · exact hw.requests a (List.mem_filter.mpr ⟨hone hb, hviva⟩)
  · exact fundada_salvado (hone hb)

/-- No code is invented in a turn whose looked-up texts are in the message. -/
theorem codes_of_looksUpWritten (hw : LooksUpWritten U E s mensaje extraccion) :
    NeverInventsCode U E s mensaje extraccion := by
  intro intro resume r hr c hc
  have hses {e : Estado} (he : e = Estado.fromSession s) (hc : c ∈ e.codes) :
      Procede U E s mensaje c := by
    subst he
    exact .conocido (List.mem_append_left _ (List.mem_append_left _ hc))
  rcases runAgent_cases hr with hest | ⟨t, ht, hest⟩
  · exact hses hest hc
  · rw [hest] at hc
    rcases turnoDe_cases ht with ⟨he, hops, -⟩ | ⟨actos, hablar, hactos, hres, -, -⟩
    · rcases aplicar_codes t.ops hc with hc | ⟨op, hop, -⟩
      · rw [he] at hc
        exact .conocido hc
      · rw [hops] at hop
        exact absurd hop List.not_mem_nil
    · obtain ⟨prods, qs, hrec, he', horigen⟩ := resolver_origen hres
      rcases aplicar_codes t.ops hc with hc | ⟨op, hop, hcod⟩
      · refine .conocido ?_
        rw [he'] at hc
        simpa only [Estado.conocidos, Estado.codes, conProductos_codes _ hrec] using hc
      · exact (horigen op hop).procede hcod (fundada_of_turno hw hactos) hw.rows

/-- An extraction of one act, with its two texts. -/
def unActo (tipo campo texto evidencia : Texto) : Json :=
  .obj [("actos", .arr [.obj [("tipo", .str tipo), (campo, .str texto),
    ("evidencia", .str evidencia)]])]

/-- "ponme kajal negro": the extraction names the product by the client's words. -/
theorem kajal_is_not_invented :
    NeverInventsCode Unicode.latin
      ⟨fun _ _ => [⟨"KJ401", "KAJAL NEGRO", "ROC", "pedidos", [], true⟩], none, fun _ => none⟩ {}
      "ponme kajal negro"
      (some (unActo "pedir" "producto_texto" "kajal negro" "ponme kajal negro")) := by
  refine codes_of_looksUpWritten ⟨?_, fun _ _ _ _ hl => nomatch hl⟩
  have hconsultas : consultas Unicode.latin (Estado.fromSession {})
      (actosAceptados Unicode.latin "ponme kajal negro"
        (some (unActo "pedir" "producto_texto" "kajal negro" "ponme kajal negro"))) =
      [{ tipo := .pedir, productoTexto := "kajal negro", evidencia := "ponme kajal negro" }] := by
    decide +kernel
  rw [hconsultas]
  intro a ha
  obtain rfl := List.mem_singleton.mp ha
  refine ⟨fun _ => by decide, fun hn => absurd ?_ hn⟩
  simp [buscada]

/-- "Hola" and an extraction that names a product: its code goes to the cart. -/
theorem greeting_buys_a_product :
    ¬ NeverInventsCode Unicode.latin
      ⟨fun _ _ => [], some fun _ c => some ⟨c, "KAJAL NEGRO", "ROC"⟩, fun _ => none⟩ {} "Hola"
      (some (unActo "pedir" "producto_texto" "KJ401" "hola")) := by
  intro h
  have hrun : ((runAgent Unicode.latin
      ⟨fun _ _ => [], some fun _ c => some ⟨c, "KAJAL NEGRO", "ROC"⟩, fun _ => none⟩ {} "Hola"
      (some (unActo "pedir" "producto_texto" "KJ401" "hola")) false false).toOption.map
        fun r => r.estado.codes) = some [("KJ401" : Texto)] := by
    decide +kernel
  obtain ⟨r, hr, hcodes⟩ := exists_of_toOption_map hrun
  have hproc := h false false r hr "KJ401" (by rw [hcodes]; exact List.mem_singleton.mpr rfl)
  cases hproc with
  | conocido hc => exact absurd hc (by decide)
  | hallado hq hh => exact absurd hh List.not_mem_nil
  | tecleado hl hrow hw =>
    obtain ⟨s, hs, hc⟩ := hw
    have hno : ∀ s ∈ lecturas Unicode.latin "Hola", ¬ Texto.contains s "KJ401" := by
      decide +kernel
    exact hno s hs ((contains_iff s _).mpr hc.isInfix)

end Resolver

end Chatlink.Agent
