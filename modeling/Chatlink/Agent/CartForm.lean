import Chatlink.Agent.OpenItems
import Chatlink.Delivery.Sheet

/-!
# The form of the cart

Two lines of the cart never share a code. A quantity of zero is another matter: the
reducer writes the number it is given, and a zero that is asked for, or that a product
or the whole message carries, reaches a line, at once or through a pick or a conflict.
The session reads it back as one and so does the order sheet. Without such a zero every
quantity is at least one in every run.
-/
namespace Chatlink.Agent

open Lists Transition

/-! ## Numbers -/

section Numbers

variable {U : Unicode}

theorem palabraNum_nonneg {w : Texto} {n : ℤ} (h : palabraNum.lookup w = some n) : 0 ≤ n := by
  have hall : ∀ x ∈ palabraNum, 0 ≤ x.2 := by decide
  obtain ⟨l₁, l₂, hl, -⟩ := List.lookup_eq_some_iff.mp h
  exact hall (w, n) (by rw [hl]; simp)

theorem numerosDePalabras_nonneg (ws : List Texto) (previa : Texto) :
    ∀ n ∈ numerosDePalabras previa ws, 0 ≤ n := by
  induction ws generalizing previa with
  | nil => simp [numerosDePalabras]
  | cons w ws ih =>
    intro n hn
    unfold numerosDePalabras at hn
    split at hn
    · exact ih w n hn
    · next v hv =>
      rcases List.mem_cons.mp hn with rfl | hn
      · split
        · decide
        · exact palabraNum_nonneg hv
      · exact ih w n hn

/-- A number read in a text is not negative. -/
theorem numerosEn_nonneg {texto : Texto} {n : ℤ} (h : n ∈ numerosEn U texto) : 0 ≤ n := by
  rcases List.mem_append.mp h with h | h
  · obtain ⟨d, -, rfl⟩ := List.mem_map.mp h
    exact Int.natCast_nonneg _
  · exact numerosDePalabras_nonneg _ _ n h

theorem numeroEscrito_nonneg {mensaje : Texto} {extraccion : Option Json} {n : ℤ}
    (h : NumeroEscrito U mensaje extraccion n) : 0 ≤ n := by
  obtain ⟨_, -, hn⟩ | ⟨_, -, -, -, hn⟩ := h
  · exact numerosEn_nonneg hn
  · exact numerosEn_nonneg hn

end Numbers

theorem mem_sortedSet {xs : List ℤ} {n : ℤ} : n ∈ sortedSet xs ↔ n ∈ xs := by
  rw [sortedSet, List.mem_insertionSort, List.mem_dedup]

theorem orNum_pos {q : Option ℤ} {b : ℤ} (hq : ∀ n ∈ q, 0 ≤ n) (hb : 1 ≤ b) : 1 ≤ orNum q b := by
  unfold orNum
  split
  · next n =>
    have hn := hq n rfl
    split
    · exact hb
    · omega
  · exact hb

theorem orNum_of_pos {n b : ℤ} (h : 1 ≤ n) : orNum (some n) b = n := by
  have hne : n ≠ 0 := by omega
  simp [orNum, hne]

/-! ## The invariant -/

/-- One line per code and no quantity of zero, neither in the cart nor where a quantity
waits to reach it. A proposal may carry a zero: it is confirmed as one. -/
structure Estado.Cabal (e : Estado) : Prop where
  codes : e.codes.Nodup
  lineas : ∀ l ∈ e.cart, 1 ≤ l.qty
  pendientes : ∀ x ∈ e.pendientes, ∀ n ∈ x.2, 1 ≤ n
  conflictos : ∀ c ∈ e.conflictos, ∀ n ∈ c.opcionesQty, 1 ≤ n
  propuestas : ∀ v ∈ e.siNos, ∀ l ∈ v.items, 0 ≤ l.qty
  ultimo : ∀ l ∈ e.lastClosedCart, 0 ≤ l.qty

/-- The operation asks for nothing in a quantity of zero. An `add` of a media turn may:
it only becomes a line of a proposal. -/
def Op.sinCero (fm : Bool) : Op → Bool
  | .add _ _ _ qty _ => fm || qty ≠ some 0
  | .opciones _ qty _ _ => qty ≠ some 0
  | .sinCandidatos _ qty => qty ≠ some 0
  | _ => true

/-- The numbers of an operation, once the zeros are left out. -/
def Op.Natural (fm : Bool) (op : Op) : Prop :=
  op.sinCero fm ∧ op.Contada (fun n => 0 ≤ n) (fun n => 1 ≤ n) False

/-- The requests of an operation are for at least one. -/
theorem pedidas_pos {fm : Bool} {e : Estado} {op : Op} (he : e.Cabal) (hop : op.Natural fm) :
    ∀ r ∈ op.pedidas fm e, ∀ q ∈ r.2, 1 ≤ q := by
  intro r hr q hq
  cases op with
  | add code name brand qty fuente =>
    cases fm with
    | true => exact absurd hr List.not_mem_nil
    | false =>
      obtain rfl := List.mem_singleton.mp hr
      have hne : qty ≠ some 0 := by simpa [Op.sinCero] using hop.1
      have hnn : 0 ≤ q := hop.2 q hq
      have hq0 : q ≠ 0 := fun h => hne (h ▸ hq)
      omega
  | elige item code name brand fuente =>
    obtain rfl := List.mem_singleton.mp hr
    obtain ⟨p, hp, hpq⟩ := Option.bind_eq_some_iff.mp hq
    have hmem : (p.texto, p.qty) ∈ e.pendientes :=
      List.mem_append_left _ (List.mem_map.mpr ⟨p, List.mem_of_find?_eq_some hp, rfl⟩)
    exact he.pendientes _ hmem q hpq
  | confirmar =>
    simp only [Op.pedidas] at hr
    split at hr
    · exact absurd hr List.not_mem_nil
    · next v hv =>
      split at hr
      · obtain ⟨l, hl, rfl⟩ := List.mem_map.mp hr
        obtain rfl := Option.some.inj hq
        obtain ⟨vs, hvs⟩ := siNoVivo_eq_some.mp hv
        have hv' : v ∈ e.siNos := by rw [hvs]; exact List.mem_cons_self
        refine orNum_pos ?_ (le_refl 1)
        rintro n ⟨⟩
        exact he.propuestas v hv' l hl
      · exact absurd hr List.not_mem_nil
  | _ => exact absurd hr List.not_mem_nil

theorem linea_none_iff {e : Estado} {code : Texto} : e.linea code = none ↔ code ∉ e.codes := by
  rw [Estado.linea, List.find?_eq_none]
  constructor
  · intro h hc
    obtain ⟨l, hl, rfl⟩ := List.mem_map.mp hc
    simpa using h l hl
  · intro h l hl hc
    have hcode : l.code = code := by simpa using hc
    exact h (hcode ▸ List.mem_map.mpr ⟨l, hl, rfl⟩)

theorem nodup_codes_append {e : Estado} {l : Linea} (h : e.codes.Nodup)
    (hl : e.linea l.code = none) : ((e.cart ++ [l]).map Linea.code).Nodup := by
  rw [List.map_append]
  refine List.nodup_append.mpr ⟨h, List.nodup_singleton _, ?_⟩
  intro a ha b hb hab
  obtain rfl := List.mem_singleton.mp hb
  exact linea_none_iff.mp hl (hab ▸ ha)

theorem add_codes_nodup {t : Trabajo} (h : t.e.codes.Nodup) (code name brand : Texto)
    (qty : Option ℤ) (fuente aliasTexto : Texto) :
    (t.add code name brand qty fuente aliasTexto).e.codes.Nodup := by
  rw [Estado.codes, Trabajo.add_cart]
  split
  · exact h
  · next hln => exact nodup_codes_append h hln

/-- Two lines never share a code. -/
theorem paso_codes_nodup (fm : Bool) {t : Trabajo} (h : t.e.codes.Nodup) (op : Op) :
    (paso fm t op).e.codes.Nodup := by
  generalize hp : paso fm t op = t'
  have hef : Efecto t op t' := hp ▸ paso_efecto fm t op
  cases hef with
  | quieto hq => exact hq.codes ▸ h
  | aparta => exact h
  | dice => exact h
  | add name brand fuente al hu hop => exact add_codes_nodup (hu.codes ▸ h) _ _ _ _ _ _
  | @fija u ln q name hu hln hop =>
    have hcodes : u.e.codes.Nodup := hu.codes ▸ h
    show ((ponQty ln.code q u.e.cart).map Linea.code).Nodup
    rw [ponQty_codes]
    exact hcodes
  | nueva name hu hln hop hq =>
    exact nodup_codes_append (hu.codes ▸ h) ((hu.linea _).trans hln)
  | @borra u code name hu hop =>
    have hcodes : u.e.codes.Nodup := hu.codes ▸ h
    exact hcodes.sublist (List.filter_sublist.map Linea.code)
  | lineas fuente hu hop hv ht =>
    exact foldl_keeps (P := fun u : Trabajo => u.e.codes.Nodup) _
      (fun u l _ hk => add_codes_nodup hk _ _ _ _ _ _) (hu.codes ▸ h)
  | cierra hu hop hv ht rs => exact hu.codes ▸ h

/-- Every line that an operation leaves is for at least one, if its requests are. -/
theorem Efecto.qty_pos {t t' : Trabajo} {op : Op} (hef : Efecto t op t') (h : t.e.Cabal)
    (hpide : ∀ code qty, op.Pide t.e code qty → ∀ q ∈ qty, 1 ≤ q) : ∀ l ∈ t'.e.cart, 1 ≤ l.qty := by
  have hoffer {code : Texto} {q : ℤ}
      (hk : ∃ k ∈ t.e.conflictos, k.code = code ∧ q ∈ k.opcionesQty) : 1 ≤ q := by
    obtain ⟨k, hk, -, hq⟩ := hk
    exact h.conflictos k hk q hq
  intro l hl
  cases hef with
  | quieto hq => exact h.lineas l (hq.cart ▸ hl)
  | aparta => exact h.lineas l hl
  | dice => exact h.lineas l hl
  | @add u code qty name brand fuente al hu hop =>
    rcases mem_add_cart hl with hl | ⟨-, -, hq⟩
    · exact h.lineas l (hu.cart ▸ hl)
    · rw [hq]
      cases qty with
      | none => exact le_refl 1
      | some q => exact hpide code (some q) hop q rfl
  | fija name hu hln hf =>
    rcases mem_ponQty hl with hl | ⟨-, hq⟩
    · exact h.lineas l (hu.cart ▸ hl)
    · rw [hq]
      cases op with
      | modificar c n modo valor b vn => exact hf.2.2.1
      | eligeQty c v =>
        obtain ⟨-, rfl, hk⟩ := hf
        exact hoffer hk
      | _ => cases hf
  | nueva name hu hln hop hq =>
    rcases List.mem_append.mp hl with hl | hl
    · exact h.lineas l (hu.cart ▸ hl)
    · obtain rfl := List.mem_singleton.mp hl
      exact hoffer hq
  | borra name hu hop => exact h.lineas l (hu.cart ▸ List.mem_of_mem_filter hl)
  | lineas fuente hu hop hv ht =>
    rcases mem_addLineas_cart hl with hl | ⟨k, hk, -, hq⟩
    · exact h.lineas l (hu.cart ▸ hl)
    · rw [hq]
      obtain ⟨vs, hvs⟩ := siNoVivo_eq_some.mp hv
      refine orNum_pos ?_ (le_refl 1)
      rintro n ⟨⟩
      exact h.propuestas _ (by rw [hvs]; exact List.mem_cons_self) k hk
  | cierra hu hop hv ht rs => exact h.lineas l (hu.cart ▸ hl)

theorem paso_qty_pos (fm : Bool) {t : Trabajo} {op : Op} (h : t.e.Cabal) (hop : op.Natural fm) :
    ∀ l ∈ (paso fm t op).e.cart, 1 ≤ l.qty := by
  cases op with
  | add code name brand qty fuente =>
    cases fm with
    | true => exact h.lineas
    | false =>
      refine (paso_efecto false t _).qty_pos h ?_
      rintro c q' ⟨rfl, rfl⟩
      exact pedidas_pos h hop _ List.mem_cons_self
  | elige item code name brand fuente =>
    refine (paso_efecto fm t _).qty_pos h ?_
    rintro c qty ⟨-, rfl | ⟨p, hp, -, rfl⟩⟩
    · simp
    · exact h.pendientes (p.texto, p.qty)
        (List.mem_append_left _ (List.mem_map.mpr ⟨p, hp, rfl⟩))
  | _ => exact (paso_efecto fm t _).qty_pos h fun _ _ hpide => (nomatch hpide)

theorem entre_pos {c : Conflicto} {rs : List (Texto × Option ℤ)} {cart : List Linea}
    (h : c.Entre rs cart) (hrs : ∀ r ∈ rs, ∀ q ∈ r.2, 1 ≤ q) (hcart : ∀ l ∈ cart, 1 ≤ l.qty) :
    ∀ n ∈ c.opcionesQty, 1 ≤ n := by
  obtain ⟨q, k, hk, hreq, hops⟩ := h
  have hq : 1 ≤ q := hrs _ hreq q rfl
  have hkq := hcart k hk
  intro n hn
  rw [hops, mem_sortedSet] at hn
  simp only [List.mem_cons, List.not_mem_nil, or_false] at hn
  omega

/-- The locals of a turn without zeros. -/
structure Trabajo.Cabal (t : Trabajo) : Prop where
  estado : t.e.Cabal
  pedidas : ∀ c q, Apuntada t.seenAdds c (some q) → 1 ≤ q
  global : ∀ n ∈ t.cantidadGlobal, 1 ≤ n
  contado : t.Contado fun n => 0 ≤ n

/-- The step lemma of the invariant. -/
theorem paso_cabal (fm : Bool) {t : Trabajo} {op : Op} (h : t.Cabal) (hop : op.Natural fm) :
    (paso fm t op).Cabal := by
  have hpos := paso_qty_pos fm h.estado hop
  have hped := pedidas_pos h.estado hop
  refine ⟨⟨paso_codes_nodup fm h.estado.codes op, hpos, ?_, ?_, ?_, ?_⟩, ?_, ?_,
    paso_contado fm t hop.2 h.contado⟩
  · intro x hx
    rcases paso_pendientes fm t hop.2 x hx with hx | hx
    · exact h.estado.pendientes x hx
    · exact hx
  · intro c hc
    have hed := paso_retocado (K := fun c : Conflicto => ∀ n ∈ c.opcionesQty, 1 ≤ n) fm t op
      fun c hbetween => entre_pos hbetween hped hpos
    rcases hed.conflictos (mem_conflictos.mp hc) with hc | hc
    · exact h.estado.conflictos c (mem_conflictos.mpr hc)
    · exact hc
  · intro v hv l hl
    rcases paso_propuestas fm t hop.2 v hv with hv | hv
    · exact h.estado.propuestas v hv l hl
    · rcases hv l hl with hq | hq | ⟨k, hk, -, hq⟩
      · rw [hq]
        decide
      · exact hq
      · rw [← hq]
        rcases List.mem_append.mp hk with hk | hk
        · exact le_trans (by decide) (h.estado.lineas k hk)
        · exact h.estado.ultimo k hk
  · rw [paso_lastClosedCart]
    exact h.estado.ultimo
  · intro c q hq
    rw [paso_seenAdds, apuntada_apunta] at hq
    rcases hq with hq | hq
    · exact h.pedidas c q hq
    · exact hped _ hq q rfl
  · intro n hn
    rcases paso_cantidadGlobal fm t op with hg | ⟨m, rfl, hg⟩
    · exact h.global n (hg ▸ hn)
    · -- a global quantity of zero is not taken
      by_cases hm : m = 0
      · subst hm
        exact h.global n hn
      · rw [hg] at hn
        obtain rfl := Option.some.inj hn
        have hnn : 0 ≤ m := hop.2 m rfl
        omega

/-! ## Pass 2 -/

theorem distintas_pos {qs : List (Option ℤ)} (h : ∀ q, some q ∈ qs → 1 ≤ q) :
    ∀ n ∈ distintas qs, 1 ≤ n := by
  intro n hn
  rw [distintas, mem_sortedSet] at hn
  obtain ⟨q, hq, rfl⟩ := List.mem_filterMap.mp hn
  exact h n hq

theorem reglaMedia_lastClosedCart (t : Trabajo) :
    (reglaMedia t).e.lastClosedCart = t.e.lastClosedCart := by
  unfold reglaMedia
  split
  · rfl
  · exact (nuevaSiNo_quieto t _ _).lastClosedCart

theorem regla3_lastClosedCart (t : Trabajo) :
    (regla3 t).e.lastClosedCart = t.e.lastClosedCart := by
  refine foldl_component (f := fun t : Trabajo => t.e.lastClosedCart) _ (fun t r _ => ?_) t
  unfold regla3Una
  dsimp only
  split <;> rfl

theorem regla11_lastClosedCart (t : Trabajo) :
    (regla11 t).e.lastClosedCart = t.e.lastClosedCart := by
  unfold regla11
  split
  · rfl
  · refine foldl_component (f := fun t : Trabajo => t.e.lastClosedCart) _ (fun t c _ => ?_) t
    unfold regla11Linea
    split <;> rfl

theorem pase2_lastClosedCart (t : Trabajo) : (pase2 t).e.lastClosedCart = t.e.lastClosedCart := by
  have hpase : (pase2 t).e.lastClosedCart =
      (regla11 (regla3 (reglaMedia t))).e.lastClosedCart := rfl
  rw [hpase, regla11_lastClosedCart, regla3_lastClosedCart, reglaMedia_lastClosedCart]

theorem sum_pos_of_pos {ns : List ℤ} (h : ∀ n ∈ ns, 1 ≤ n) (hne : 1 < ns.length) : 1 ≤ ns.sum := by
  obtain ⟨n, hn⟩ := List.exists_mem_of_length_pos (Nat.lt_of_succ_lt hne)
  have hle : n ≤ ns.sum := by
    refine List.single_le_sum (fun m hm => ?_) n hn
    exact le_trans (by decide) (h m hm)
  exact le_trans (h n hn) hle

theorem pase2_cabal {t : Trabajo} (h : t.Cabal) : (pase2 t).e.Cabal := by
  refine ⟨?_, ?_, ?_, ?_, ?_, ?_⟩
  · have hcodes : (pase2 t).e.codes = (regla11 (regla3 (reglaMedia t))).e.codes := rfl
    rw [hcodes, regla11_codes, Estado.codes, regla3, regla3_cart, reglaMedia_cart]
    exact h.estado.codes.sublist (List.filter_sublist.map Linea.code)
  · intro l hl
    rcases pase2_lineas hl with hl | hl
    · exact h.estado.lineas l hl
    · exact h.global _ hl
  · intro x hx n hn
    rcases pase2_pendientes t x hx with hx | hx
    · exact h.estado.pendientes x hx n hn
    · exact h.global n (hx n hn)
  · intro c hc
    obtain ⟨i, hi, hs⟩ := (pase2_prosigue t).de _ (mem_conflictos.mp hc)
    cases hs
    have hed : Retocado (fun c : Conflicto => ∀ n ∈ c.opcionesQty, 1 ≤ n) t.e.openItems
        (regla3 (reglaMedia t)).e.openItems := by
      refine (reglaMedia_retocado _ t).trans (regla3_retocado _ ?_)
      intro r hr hd name n hn
      rw [(reglaMedia_frame t).1] at hr
      have hds := distintas_pos fun q hq => h.pedidas r.1 q ⟨r.2, hr, hq⟩
      rw [mem_sortedSet] at hn
      rcases List.mem_append.mp hn with hn | hn
      · exact hds n hn
      · obtain rfl := List.mem_singleton.mp hn
        exact sum_pos_of_pos hds hd
    rcases hed.conflictos hi with hc | hc
    · exact h.estado.conflictos c (mem_conflictos.mpr hc)
    · exact hc
  · intro v hv l hl
    rcases pase2_propuestas h.contado v hv with hv | hv
    · exact h.estado.propuestas v hv l hl
    · rcases hv l hl with hq | hq
      · rw [hq]
        decide
      · exact hq
  · rw [pase2_lastClosedCart]
    exact h.estado.ultimo

/-! ## Turns -/

/-- No request, no open product and no global quantity of zero reaches the reducer. -/
def Turno.sinCeros (t : Turno) : Bool :=
  t.cantidadGlobal ≠ some 0 && t.ops.all (Op.sinCero t.fuenteMedia) &&
    t.estado.productosAbiertos.all fun p => p.qty ≠ some 0

theorem resultado_cabal {t : Turno} (h0 : t.estado.Cabal) (hg : ∀ n ∈ t.cantidadGlobal, 1 ≤ n)
    (hops : ∀ op ∈ t.ops, op.Natural t.fuenteMedia) : t.resultado.estado.Cabal := by
  rw [Turno.resultado_estado]
  refine pase2_cabal (foldl_keeps (P := Trabajo.Cabal) t.ops (fun u op hop hu => ?_) ?_)
  · exact paso_cabal _ hu (hops op hop)
  · refine ⟨h0, ?_, hg, ⟨fun n hn => le_trans (by decide) (hg n hn), by simp [inicio]⟩⟩
    rintro c q ⟨qs, hqs, -⟩
    exact absurd hqs List.not_mem_nil

theorem Op.Contada.mono {N N' D D' : ℤ → Prop} {op : Op} {citada : Prop} (hN : ∀ n, N n → N' n)
    (hD : ∀ n, D n → D' n) (h : op.Contada N D citada) : op.Contada N' D' citada := by
  cases op with
  | add => exact fun n hn => hN n (h n hn)
  | modificar => exact fun n hn => hN n (h n hn)
  | opciones => exact fun n hn => hD n (h n hn)
  | sinCandidatos => exact fun n hn => hD n (h n hn)
  | eligeQty => exact fun hc => hN _ (h hc)
  | cantidadGlobal => exact fun n hn => hN n (h n hn)
  | repetirUltimo => exact fun n hn => hN n (h n hn)
  | _ => trivial

/-- Numbers that are not negative, once the zeros are left out. -/
theorem natural_of_contada {fm : Bool} {op : Op} (hz : op.sinCero fm)
    (h : op.Contada (fun n => 0 ≤ n) (fun n => 0 ≤ n) False) : op.Natural fm := by
  have hpos {qty : Option ℤ} (hne : qty ≠ some 0) (hq : ∀ n ∈ qty, 0 ≤ n) : ∀ n ∈ qty, 1 ≤ n := by
    intro n hn
    have hnn := hq n hn
    have hn0 : n ≠ 0 := fun h0 => hne (h0 ▸ hn)
    omega
  refine ⟨hz, ?_⟩
  cases op with
  | opciones texto qty ops ind => exact hpos (by simpa [Op.sinCero] using hz) h
  | sinCandidatos texto qty => exact hpos (by simpa [Op.sinCero] using hz) h
  | _ => exact h

section Session

variable {U : Unicode} {s s' : Sesion} {x : Entrada}

/-- The session as it is stored, before it is read back. -/
def Sesion.guardado (s : Sesion) : Estado where
  orderStatus := s.orderStatus
  cart := s.cart
  openItems := s.openItems.filterMap coerceOpenItem
  lastClosedCart := s.lastClosedCart

theorem vacio_cabal {cart : List Linea} (h : ∀ l ∈ cart, 0 ≤ l.qty) :
    ({ lastClosedCart := cart } : Estado).Cabal := by
  refine ⟨List.nodup_nil, ?_, ?_, ?_, ?_, h⟩
  all_goals
    intro _ hmem
    exact absurd hmem List.not_mem_nil

theorem fromSession_cabal (h : s.guardado.Cabal) : (Estado.fromSession s).Cabal := by
  refine ⟨?_, ?_, h.pendientes, h.conflictos, h.propuestas, h.ultimo⟩
  · show (((s.cart.filter fun l => !l.code.isEmpty).map lineaLeida).map Linea.code).Nodup
    rw [List.map_map]
    exact h.codes.sublist (List.filter_sublist.map Linea.code)
  · intro l hl
    obtain ⟨k, hk, rfl⟩ := List.mem_map.mp hl
    have hq := h.lineas k (List.mem_of_mem_filter hk)
    show 1 ≤ orNum (some k.qty) 1
    rw [orNum_of_pos hq]
    exact hq

theorem archiva_cabal (h : s.guardado.Cabal) : s.archiva.guardado.Cabal := by
  unfold Sesion.archiva
  split
  · refine ⟨h.codes, h.lineas, h.pendientes, h.conflictos, h.propuestas, ?_⟩
    intro l hl
    exact le_trans (by decide) (h.lineas l hl)
  · exact h

theorem inicio_cabal (h : s.guardado.Cabal) : s.inicio.Cabal := by
  by_cases hc : s.orderStatus = .closed
  · rw [inicio_of_closed hc]
    exact vacio_cabal (archiva_cabal h).ultimo
  · rw [inicio_of_open hc]
    exact fromSession_cabal h

/-- The reducer is given a turn without zeros. -/
theorem turno_cabal (h : s.guardado.Cabal) {t : Turno}
    (ht : turnoDe U x.entorno s.archiva.paraElAgente x.mensaje x.extraccion = .ok (.turno t))
    (hz : t.sinCeros) : t.resultado.estado.Cabal := by
  have hini := inicio_cabal h
  simp only [Turno.sinCeros, Bool.and_eq_true, decide_eq_true_eq, List.all_eq_true] at hz
  obtain ⟨⟨hzg, hzo⟩, hzp⟩ := hz
  rcases turnoDe_cases ht with ⟨he, hops, hg⟩ | ⟨actos, hablar, hactos, hres, -, hg⟩
  · apply resultado_cabal
    · rw [he]
      exact hini
    · rw [hg]
      simp
    · rw [hops]
      simp
  · have hcont : ∀ a ∈ actos, a.Contado (NumeroEscrito U x.mensaje x.extraccion) :=
      fun a ha => actosDelTurno_contado hactos ha
    obtain ⟨prods, qs, hrec, he', horigen⟩ := resolver_origen hres
    have hdicha {n : ℤ} (hn : Dicha U x.mensaje x.extraccion s.inicio n) : 0 ≤ n := by
      rcases hn with hn | ⟨p, hp, hpn⟩
      · exact numeroEscrito_nonneg hn
      · have hmem : (p.texto, p.qty) ∈ s.inicio.pendientes :=
          List.mem_append_left _ (List.mem_map.mpr ⟨p, hp, rfl⟩)
        exact le_trans (by decide) (hini.pendientes _ hmem n hpn)
    have hestado : t.estado.Cabal := by
      have hview : Recontado s.inicio t.estado prods := he' ▸ recontado hrec
      refine ⟨?_, hview.cart ▸ hini.lineas, ?_, hview.conflictos ▸ hini.conflictos,
        hview.siNos ▸ hini.propuestas, hview.ultimo ▸ hini.ultimo⟩
      · rw [Estado.codes, hview.cart]
        exact hini.codes
      · intro y hy n hn
        rcases List.mem_append.mp hy with hy | hy
        · obtain ⟨p, hp, rfl⟩ := List.mem_map.mp hy
          have hne : p.qty ≠ some 0 := hzp p hp
          have hnn := hdicha (dicha_of_recontados hcont hrec (hview.productos ▸ hp) hn)
          have hn0 : n ≠ 0 := fun h0 => hne (h0 ▸ hn)
          omega
        · exact hini.pendientes y (List.mem_append_right _ (hview.aRevisar ▸ hy)) n hn
    refine resultado_cabal hestado ?_ ?_
    · intro n hn
      have hn' := hn
      rw [hg] at hn'
      obtain ⟨ln, hln, hnum⟩ := cantidadGlobal_mem hn'
      have hnn := numerosEn_nonneg hnum
      have hn0 : n ≠ 0 := fun h0 => hzg (h0 ▸ hn)
      omega
    · intro op hop
      refine natural_of_contada (hzo op hop) ?_
      have hc : op.Contada _ _ False := (horigen op hop).contada hcont hrec fun hf => hf.elim
      exact hc.mono (fun n hn => numeroEscrito_nonneg hn) fun n hn => hdicha hn

/-- No zero reaches the reducer in the turn from this session with this input. -/
def sinCeros (U : Unicode) (s : Sesion) (x : Entrada) : Bool :=
  match turnoDe U x.entorno s.archiva.paraElAgente x.mensaje x.extraccion with
  | .ok (.turno t) => t.sinCeros
  | _ => true

theorem turno_of_sinCeros (h : sinCeros U s x) {t : Turno}
    (ht : turnoDe U x.entorno s.archiva.paraElAgente x.mensaje x.extraccion = .ok (.turno t)) :
    t.sinCeros := by
  unfold sinCeros at h
  rw [ht] at h
  exact h

theorem pasoSesion_cabal (hz : sinCeros U s x) (hp : pasoSesion U s x = some s')
    (h : s.guardado.Cabal) : s'.guardado.Cabal := by
  obtain ⟨⟨s₁, k⟩, hrun, rfl⟩ := Option.map_eq_some_iff.mp hp
  rcases runTurn_cases hrun with ⟨-, rfl, -⟩ | ⟨r, hr, -, rfl, -⟩
  · exact archiva_cabal h
  · have hestado : r.estado.Cabal := by
      rcases runAgent_cases hr with hest | ⟨t, ht, hest⟩
      · rw [hest]
        exact inicio_cabal h
      · rw [hest]
        exact turno_cabal h ht (turno_of_sinCeros hz ht)
    have hitems : (s.archiva.tras r.estado).guardado.openItems = r.estado.openItems :=
      coerceOpenItem_tipado r.estado.openItems
    refine ⟨hestado.codes, hestado.lineas, ?_, ?_, ?_, ?_⟩
    · intro y hy
      refine hestado.pendientes y ?_
      rw [Estado.pendientes, Estado.productosAbiertos, Estado.aRevisar, hitems] at hy
      exact hy
    · intro c hc
      rw [Estado.conflictos, hitems] at hc
      exact hestado.conflictos c hc
    · intro v hv
      rw [Estado.siNos, hitems] at hv
      exact hestado.propuestas v hv
    · intro l hl
      have hl' : l ∈ if r.estado.orderStatus = .closed then r.estado.cart
        else s.archiva.lastClosedCart := hl
      split at hl'
      · exact le_trans (by decide) (hestado.lineas l hl')
      · exact (archiva_cabal h).ultimo l hl'

/-- One line per code, every quantity at least one: the session and the order sheet say
what the client was told. -/
structure CartWellFormed (e : Estado) : Prop where
  codes : (e.cart.map Linea.code).Nodup
  qty : ∀ l ∈ e.cart, 1 ≤ l.qty
  reloaded : ∀ l ∈ e.cart, (lineaLeida l).qty = l.qty
  sheet : ∀ l ∈ e.cart, (Delivery.filaDeLinea l).cantidad = l.qty

theorem Estado.Cabal.cartWellFormed {e : Estado} (h : e.Cabal) : CartWellFormed e :=
  ⟨h.codes, h.lineas, fun l hl => orNum_of_pos (h.lineas l hl),
    fun l hl => orNum_of_pos (h.lineas l hl)⟩

/-- In a run from an empty session in which no zero reaches the reducer, every cart it
returns is well formed. -/
theorem cart_wellFormed {t : Turno}
    (h : Reachable (pasoSesion U) (fun s x => sinCeros U s x = true) {} s)
    (ht : turnoDe U x.entorno s.archiva.paraElAgente x.mensaje x.extraccion = .ok (.turno t))
    (hz : sinCeros U s x = true) : CartWellFormed t.resultado.estado := by
  have hempty : ({} : Sesion).guardado.Cabal := vacio_cabal fun l hl => absurd hl List.not_mem_nil
  have hs : s.guardado.Cabal := h.invariant (I := fun s => s.guardado.Cabal) hempty
    fun _ _ _ hc hp hi => pasoSesion_cabal hc hp hi
  exact (turno_cabal hs ht (turno_of_sinCeros hz ht)).cartWellFormed

theorem cart_wellFormed_of_pideDos :
    ∃ s t, replay (pasoSesion .latin) (sinCeros .latin) {} [pideDos] = some s ∧
      turnoDe .latin cierra.entorno s.archiva.paraElAgente cierra.mensaje cierra.extraccion =
        .ok (.turno t) ∧
      t.resultado.estado.cart.map Linea.qty = [6] ∧ CartWellFormed t.resultado.estado := by
  have hrun : ((replay (pasoSesion .latin) (sinCeros .latin) {} [pideDos]).map fun s =>
      (sinCeros .latin s cierra,
        ((turnoDe .latin cierra.entorno s.archiva.paraElAgente cierra.mensaje
          cierra.extraccion).toOption.bind Desenlace.resultado?).map fun e => e.cart.map Linea.qty)) =
      some (true, some [6]) := by
    decide +kernel
  obtain ⟨s, hs, hlast⟩ := Option.map_eq_some_iff.mp hrun
  obtain ⟨hz, hturn⟩ := Prod.mk.inj hlast
  obtain ⟨e, he, hqty⟩ := Option.map_eq_some_iff.mp hturn
  obtain ⟨t, ht, rfl⟩ := turno_of_resultado? he
  exact ⟨s, t, hs, ht, hqty, cart_wellFormed (reachable_of_replay _ hs .refl) ht hz⟩

/-- "ponme 0 del kajal negro". -/
def pideCero : Entrada := ⟨soloKajal, "ponme 0 del kajal negro",
  extraccionDe [actoPedir "kajal negro" "0 del kajal negro" 0], false, false, false⟩

/-- The line is written with quantity zero, which the sheet turns into one. -/
theorem zero_reaches_the_cart :
    ¬ ∀ (s : Sesion) (x : Entrada) (t : Turno), Reachable (pasoSesion .latin) Libre {} s →
      turnoDe .latin x.entorno s.archiva.paraElAgente x.mensaje x.extraccion = .ok (.turno t) →
      CartWellFormed t.resultado.estado := by
  intro h
  have hrun : (((turnoDe .latin pideCero.entorno ({} : Sesion).archiva.paraElAgente pideCero.mensaje
      pideCero.extraccion).toOption.bind Desenlace.resultado?).map fun e => e.cart.map Linea.qty) =
      some [0] := by
    decide +kernel
  obtain ⟨e, he, hqty⟩ := Option.map_eq_some_iff.mp hrun
  obtain ⟨t, ht, rfl⟩ := turno_of_resultado? he
  have hpos := (h {} pideCero t .refl ht).qty
  have hmem : (0 : ℤ) ∈ t.resultado.estado.cart.map Linea.qty := by
    rw [hqty]
    exact List.mem_singleton.mpr rfl
  obtain ⟨l, hl, hl0⟩ := List.mem_map.mp hmem
  have hle := hpos l hl
  omega

end Session

end Chatlink.Agent
