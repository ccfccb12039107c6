import Chatlink.Agent.Additions
import Chatlink.Agent.SoleWriter

/-!
# No request is dropped

Every act of a message has an operation of its own, which says its product and its number, and
every line the reducer is told to add is found again in the state it returns. Requests are lost
where the resolver keeps one request for each typed code, where it keeps one number for each open
product, and where the reducer has read a photo while another proposal is alive.
-/
namespace Chatlink.Agent

open Lists

variable {U : Unicode} {E : Entorno} {e e' : Estado} {ps : List Producto} {as actos : List Acto}

/-! ## What it is for an operation to carry a request -/

/-- The open product a request is tied to. -/
def nombra (U : Unicode) (e : Estado) (b : Acto) : Option ℕ :=
  (porOpcion U (opcionesSpace e.productosAbiertos) b).or (porTexto U e.productosAbiertos b)

/-- The option `o` is one of the open products' that the request names by its code. -/
def NombraOpcion (U : Unicode) (e : Estado) (b : Acto) (o : Opcion) : Prop :=
  o.code ∈ codesInText U b.productoTexto ∧ ∃ p ∈ e.productosAbiertos, o ∈ p.opciones

/-- The operation says the product of the request `b` and its number. A pick takes the number of
the open product it names, which is among `prods`; a code nobody knows has no line to give a
number to. -/
inductive Op.Lleva (U : Unicode) (E : Entorno) (e : Estado) (prods : List Producto) (b : Acto) :
    Op → Prop
  | elige {i : ℕ} {p : Producto} {o : Opcion} {qs : List Texto} (hi : nombra U e b = some i)
      (hp : prods[i]? = some p)
      (ho : NombraOpcion U e b o ∨ o.Hallada E qs b.productoTexto)
      (hq : ∀ v, b.cantidad.valor = some v → p.qty = some v) : Lleva U E e prods b (opElige p.texto o)
  | tecleado {c : Texto} {lookup : List Texto → Texto → Option Articulo} {codes : List Texto}
      {row : Articulo} (hc : codigoTecleado U b = some c) (hl : E.codeLookup = some lookup)
      (hr : lookup codes c = some row) : Lleva U E e prods b
        (.add (Texto.orElse row.code c) row.name row.brand b.cantidad.valor "codigo_cliente")
  | noExiste {c : Texto} (hc : codigoTecleado U b = some c) : Lleva U E e prods b (.codigoNoExiste c)
  | hallado {o : Opcion} {qs : List Texto} (hi : nombra U e b = none)
      (ho : o.Hallada E qs b.productoTexto) :
      Lleva U E e prods b (.add o.code o.name o.brand b.cantidad.valor o.fuente)
  | ofrece {qty : Option ℤ} {ops : List Opcion} {ind : Bool}
      (hq : ∀ v, b.cantidad.valor = some v → qty = some v) :
      Lleva U E e prods b (.opciones b.productoTexto qty ops ind)
  | sinCandidatos {qty : Option ℤ} (hq : ∀ v, b.cantidad.valor = some v → qty = some v) :
      Lleva U E e prods b (.sinCandidatos b.productoTexto qty)

/-- The requests one act leaves for the retrieval, one at most. -/
def pedidos (U : Unicode) (e : Estado) (a : Acto) : List Acto := peticiones U e [a]

/-- The operation stands for the act: it carries the request the act leaves, and a `pedir` that
leaves none has answered a quantity conflict with its number. -/
def Op.Atiende (U : Unicode) (E : Entorno) (e : Estado) (prods : List Producto) (a : Acto) (op : Op) :
    Prop :=
  (∀ b ∈ pedidos U e a, op.Lleva U E e prods b) ∧
    (a.tipo = .pedir → pedidos U e a = [] →
      ∃ c n, op = .eligeQty c n ∧ U.intOf (Texto.strip a.productoTexto) = some n)

/-- Every act has an operation of its own. -/
def Servidos (U : Unicode) (E : Entorno) (e : Estado) (prods : List Producto) (actos : List Acto)
    (ops : List Op) : Prop :=
  Multiset.Rel (fun a op => Op.Atiende U E e prods a op) actos ops

/-- No two requests are for the same typed code. -/
def Distintos (U : Unicode) (e : Estado) (actos : List Acto) : Prop :=
  ((consultas U e actos).filterMap (codigoTecleado U)).Nodup

/-- The requests that name one open product agree on its number. -/
def Acordes (U : Unicode) (e : Estado) (actos : List Acto) : Prop :=
  ∀ i v w, (i, v) ∈ numeros U e actos → (i, w) ∈ numeros U e actos → v = w

/-! ## Stage by stage -/

section Rel

variable {α β : Type} {R : α → β → Prop}

theorem rel_filterMap {f : α → Option β} {l : List α} (h : ∀ a ∈ l, ∀ b, f a = some b → R a b) :
    Multiset.Rel R (l.filter fun a => (f a).isSome) (l.filterMap f) := by
  induction l with
  | nil => exact .zero
  | cons a l ih =>
    have hl := ih fun x hx => h x (List.mem_cons_of_mem a hx)
    cases hf : f a with
    | none => simpa [hf] using hl
    | some b => simpa [hf] using Multiset.Rel.cons (h a List.mem_cons_self b hf) hl

/-- Two parts of a list, each with its own. -/
theorem rel_of_filter (p : α → Bool) {l : List α} {bs bs' : List β}
    (h : Multiset.Rel R (l.filter p) bs) (h' : Multiset.Rel R (l.filter fun a => !p a) bs') :
    Multiset.Rel R l ↑(bs ++ bs') := by
  have hperm : (l : Multiset α) = ↑(l.filter p ++ l.filter fun a => !p a) :=
    Multiset.coe_eq_coe.mpr (List.filter_append_perm p l).symm
  rw [hperm, ← Multiset.coe_add, ← Multiset.coe_add]
  exact h.add h'

end Rel

theorem respuestaConflicto_eq_some {cs : List Conflicto} {t : Texto} {op : Op}
    (h : respuestaConflicto U cs t = .ok (some op)) :
    ∃ c n, op = .eligeQty c n ∧ U.intOf (Texto.strip t) = some n := by
  unfold respuestaConflicto at h
  dsimp only at h
  split at h
  · split at h
    · cases h
    · next n hn =>
      obtain ⟨c, -, rfl⟩ := Option.map_eq_some_iff.mp (Except.ok.inj h)
      exact ⟨c.code, n, rfl, hn⟩
  · cases h

/-- What an act becomes: an operation, which adds no line, or a request. -/
theorem resuelveActo_uno {a : Acto} {r : List Op × List Acto} (h : resuelveActo U e a = .ok r) :
    (∃ op, r = ([op], []) ∧ op.leida = none ∧ (a.tipo = .pedir →
      ∃ c n, op = .eligeQty c n ∧ U.intOf (Texto.strip a.productoTexto) = some n)) ∨
      ∃ b, r = ([], [b]) := by
  unfold resuelveActo at h
  dsimp only at h
  cases ht : a.tipo with
  | pedir =>
    rw [ht] at h
    obtain ⟨x, hx, h⟩ := bind_eq_ok h
    cases x with
    | none =>
      cases h
      exact .inr ⟨a, rfl⟩
    | some op =>
      cases h
      obtain ⟨c, n, rfl, hn⟩ := respuestaConflicto_eq_some hx
      exact .inl ⟨_, rfl, rfl, fun _ => ⟨c, n, rfl, hn⟩⟩
  | elegir =>
    rw [ht] at h
    obtain ⟨x, hx, h⟩ := bind_eq_ok h
    cases x with
    | some op =>
      cases h
      obtain ⟨c, n, rfl, -⟩ := respuestaConflicto_eq_some hx
      exact .inl ⟨_, rfl, rfl, nofun⟩
    | none =>
      cases h
      unfold resuelveElegir
      dsimp only
      split
      · split <;> exact .inl ⟨_, rfl, rfl, nofun⟩
      · split
        · exact .inl ⟨_, rfl, rfl, nofun⟩
        · exact .inr ⟨_, rfl⟩
  | modificar =>
    rw [ht] at h
    cases h
    refine .inl ⟨_, rfl, ?_, nofun⟩
    unfold resuelveModificar
    dsimp only
    split <;> rfl
  | _ =>
    rw [ht] at h
    cases h
    exact .inl ⟨_, rfl, rfl, nofun⟩

theorem peticiones_cons (a : Acto) (as : List Acto) :
    peticiones U e (a :: as) = pedidos U e a ++ peticiones U e as := by
  simp [pedidos, peticiones]

theorem pedidos_of_ok {a : Acto} {r : List Op × List Acto} (h : resuelveActo U e a = .ok r) :
    pedidos U e a = r.2 := by
  simp [pedidos, peticiones, h]

/-- The acts have their own when the requests they leave do. -/
theorem servidos_of_peticiones {rs : List (List Op × List Acto)} {os : List Op}
    (h : actos.mapM (resuelveActo U e) = .ok rs)
    (hos : Multiset.Rel (fun b op => Op.Lleva U E e ps b op) (peticiones U e actos) os) :
    Servidos U E e ps actos (rs.flatMap Prod.fst ++ os) := by
  unfold Servidos
  induction actos generalizing rs os with
  | nil =>
    cases h
    have hnil : os = [] := (Multiset.coe_eq_zero os).mp (Multiset.rel_zero_left.mp hos)
    rw [hnil]
    exact .zero
  | cons a as ih =>
    rw [List.mapM_cons] at h
    obtain ⟨r, hr, h⟩ := bind_eq_ok h
    obtain ⟨rs', hrs, h⟩ := bind_eq_ok h
    cases h
    have hone := pedidos_of_ok hr
    rw [peticiones_cons, hone] at hos
    rcases resuelveActo_uno hr with ⟨op, rfl, -, hop⟩ | ⟨b, rfl⟩
    · rw [List.nil_append] at hos
      rw [List.flatMap_cons, List.singleton_append, List.cons_append, ← Multiset.cons_coe,
        ← Multiset.cons_coe]
      refine Multiset.Rel.cons ⟨?_, fun ht _ => hop ht⟩ (ih hrs hos)
      rw [hone]
      exact fun b hb => absurd hb List.not_mem_nil
    · rw [List.singleton_append, ← Multiset.cons_coe] at hos
      obtain ⟨op, os', hlleva, hrest, heq⟩ := Multiset.rel_cons_left.mp hos
      obtain ⟨l, rfl⟩ : ∃ l : List Op, os' = l := ⟨os'.toList, os'.coe_toList.symm⟩
      have hperm : ((rs'.flatMap Prod.fst ++ os : List Op) : Multiset Op) =
          op ::ₘ ↑(rs'.flatMap Prod.fst ++ l) := by
        rw [← Multiset.coe_add, heq, Multiset.add_cons, Multiset.coe_add]
      rw [List.flatMap_cons, List.nil_append, hperm, ← Multiset.cons_coe]
      refine Multiset.Rel.cons ⟨?_, ?_⟩ (ih hrs hrest)
      · rw [hone]
        intro b' hb'
        obtain rfl := List.mem_singleton.mp hb'
        exact hlleva
      · rw [hone]
        exact fun _ hnil => absurd hnil (List.cons_ne_nil b [])

/-! ### The operations of the resolver -/

/-- The pick of a request that names an option of an open product by its code. -/
def elegidaPorCodigo (U : Unicode) (prods : List Producto) (espacio : Espacio (ℕ × Opcion)) (b : Acto) :
    Option Op :=
  (espacio.find? fun x => (codesInText U b.productoTexto).contains x.1).map fun x =>
    opElige (textoDe prods x.2.2.1) x.2.2.2

/-- The other requests, each tied to the open product of its wording. -/
def atadas (U : Unicode) (e : Estado) (actos : List Acto) : List Peticion :=
  (consultas U e actos).map fun b => ⟨b, porTexto U e.productosAbiertos b⟩

theorem textoDe_ponItemQty (ps : List Producto) (i j : ℕ) (v : Option ℤ) :
    textoDe (ponItemQty ps i v) j = textoDe ps j := by
  unfold textoDe
  rw [← List.getElem?_map, ← List.getElem?_map, textos_ponItemQty]

theorem eligePorCodigo_ops (espacio : Espacio (ℕ × Opcion)) (ps : List Producto) (as : List Acto) :
    (eligePorCodigo U espacio ps as).2.1 = as.filterMap (elegidaPorCodigo U ps espacio) := by
  induction as generalizing ps with
  | nil => rfl
  | cons a as ih =>
    cases hf : espacio.find? fun x => (codesInText U a.productoTexto).contains x.1 with
    | some x =>
      obtain ⟨k, t, i, o⟩ := x
      have hpick : elegidaPorCodigo U ps espacio a = some (opElige (textoDe ps i) o) := by
        rw [elegidaPorCodigo, hf]
        rfl
      have hsame : elegidaPorCodigo U (ponItemQty ps i a.cantidad.valor) espacio =
          elegidaPorCodigo U ps espacio := by
        funext b
        simp only [elegidaPorCodigo, textoDe_ponItemQty]
      simp only [eligePorCodigo, hf]
      rw [List.filterMap_cons_some hpick, ih, hsame]
    | none =>
      have hpick : elegidaPorCodigo U ps espacio a = none := by
        rw [elegidaPorCodigo, hf]
        rfl
      simp only [eligePorCodigo, hf]
      rw [List.filterMap_cons_none hpick, ih]

theorem enriquece_peticiones (ps : List Producto) (as : List Acto) :
    (enriquece U ps as).2 = as.map fun b => ⟨b, porTexto U ps b⟩ := by
  induction as generalizing ps with
  | nil => rfl
  | cons a as ih =>
    cases hl : (ligar U a.productoTexto (itemSpace ps)).unico with
    | some i =>
      simp only [enriquece, hl]
      rw [ih, porTexto_ponItemQty, List.map_cons, porTexto, hl]
    | none =>
      simp only [enriquece, hl]
      rw [ih, List.map_cons, porTexto, hl]

/-- The operations stage by stage: those of the acts, the picks by code, the typed codes, and what
the search and the match model make of the rest. -/
theorem resolver_ops {ops : List Op} (h : resolver U E actos e = .ok (ops, e')) :
    ∃ rs, actos.mapM (resuelveActo U e) = .ok rs ∧
      ops = rs.flatMap Prod.fst ++ ((peticiones U e actos).filterMap
          (elegidaPorCodigo U e.productosAbiertos (opcionesSpace e.productosAbiertos)) ++
        ((resuelveCodigos U E (atadas U e actos)).1 ++
        casa E (escribe e.productosAbiertos (numeros U e actos))
          ((resuelveCodigos U E (atadas U e actos)).2.map fun p =>
            busca U (escribe e.productosAbiertos (numeros U e actos))
              (E.search ((resuelveCodigos U E (atadas U e actos)).2.map fun p => p.acto.productoTexto)
                p.acto.productoTexto) p))) := by
  unfold resolver at h
  obtain ⟨rs, hrs, h⟩ := bind_eq_ok h
  obtain ⟨h1, h2⟩ := eligePorCodigo_productos (U := U) (opcionesSpace e.productosAbiertos)
    e.productosAbiertos (rs.flatMap Prod.snd)
  have h3 := eligePorCodigo_ops (U := U) (opcionesSpace e.productosAbiertos)
    e.productosAbiertos (rs.flatMap Prod.snd)
  rw [peticiones_of_mapM hrs] at h1 h2 h3 h
  rw [← consultas_eq] at h2
  have h4 := enriquece_productos (U := U) (escribe e.productosAbiertos ((peticiones U e actos).filterMap
    (escrito (porOpcion U (opcionesSpace e.productosAbiertos))))) (consultas U e actos)
  have h5 := enriquece_peticiones (U := U) (escribe e.productosAbiertos ((peticiones U e actos).filterMap
    (escrito (porOpcion U (opcionesSpace e.productosAbiertos))))) (consultas U e actos)
  rw [porTexto_escribe, ← escribe_append, ← numeros] at h4
  rw [porTexto_escribe, ← atadas] at h5
  rw [← h1, ← h2] at h4 h5
  dsimp only at h
  generalize eligePorCodigo U (opcionesSpace e.productosAbiertos) e.productosAbiertos
    (peticiones U e actos) = picks at h h3 h4 h5
  obtain ⟨ps1, ops2, pedir⟩ := picks
  dsimp only at h h3 h4 h5
  generalize enriquece U ps1 pedir = tied at h h4 h5
  obtain ⟨ps2, pts⟩ := tied
  dsimp only at h h4 h5
  subst h3 h4 h5
  refine ⟨rs, hrs, ?_⟩
  cases hcod : resuelveCodigos U E (atadas U e actos) with
  | mk ops3 conTexto =>
    rw [hcod] at h
    cases h
    cases conTexto with
    | nil => simp only [List.append_assoc, List.map_nil]
    | cons p rest => simp only [List.append_assoc, List.isEmpty_cons, Bool.false_eq_true, if_false]

/-! ### The typed codes -/

theorem asigna_of_not_mem {α : Type} {k : Texto} {v : α} {d : List (Texto × α)}
    (h : k ∉ d.map Prod.fst) : asigna k v d = d ++ [(k, v)] := by
  induction d with
  | nil => rfl
  | cons x d ih =>
    obtain ⟨k', v'⟩ := x
    obtain ⟨hne, hd⟩ := not_or.mp (mt List.mem_cons.mpr h)
    rw [asigna, if_neg (Ne.symm hne), ih hd]
    rfl

theorem asigna_of_mem {α : Type} {k : Texto} {v : α} {d : List (Texto × α)}
    (h : k ∈ d.map Prod.fst) : (asigna k v d).map Prod.fst = d.map Prod.fst := by
  induction d with
  | nil => cases h
  | cons x d ih =>
    obtain ⟨k', v'⟩ := x
    rw [asigna]
    split_ifs with hk
    · rfl
    · have hd : k ∈ d.map Prod.fst := (List.mem_cons.mp h).resolve_left fun heq => hk heq.symm
      exact congrArg (k' :: ·) (ih hd)

theorem separaCodigos_concat (ps : List Peticion) (p : Peticion) : (separaCodigos U (ps ++ [p])).1 =
    (codigoTecleado U p.acto).elim (separaCodigos U ps).1 fun c => asigna c p (separaCodigos U ps).1 := by
  simp only [separaCodigos, List.foldl_append, List.foldl_cons, List.foldl_nil]
  cases codigoTecleado U p.acto <;> rfl

/-- The keys are the typed codes, each once. -/
theorem separaCodigos_keys (ps : List Peticion) :
    ((separaCodigos U ps).1.map Prod.fst).Nodup ∧ ∀ c, c ∈ (separaCodigos U ps).1.map Prod.fst ↔
      c ∈ ps.filterMap fun p => codigoTecleado U p.acto := by
  induction ps using List.reverseRecOn with
  | nil => exact ⟨List.nodup_nil, fun c => Iff.rfl⟩
  | append_singleton ps p ih =>
    obtain ⟨hnodup, hmem⟩ := ih
    rw [separaCodigos_concat, List.filterMap_append]
    cases hc : codigoTecleado U p.acto with
    | none =>
      rw [Option.elim_none, List.filterMap_cons_none (f := fun p : Peticion => codigoTecleado U p.acto) hc,
        List.filterMap_nil, List.append_nil]
      exact ⟨hnodup, hmem⟩
    | some k =>
      simp only [Option.elim_some, List.filterMap_cons_some (f := fun p : Peticion =>
        codigoTecleado U p.acto) hc, List.filterMap_nil, List.mem_append, List.mem_singleton, ← hmem]
      by_cases hk : k ∈ (separaCodigos U ps).1.map Prod.fst
      · rw [asigna_of_mem hk]
        refine ⟨hnodup, fun c => ⟨.inl, ?_⟩⟩
        rintro (h | rfl)
        · exact h
        · exact hk
      · rw [asigna_of_not_mem hk, List.map_append]
        refine ⟨List.nodup_append.mpr ⟨hnodup, List.nodup_singleton k, ?_⟩, fun c => ?_⟩
        · rintro c hmem' d hd rfl
          obtain rfl := List.mem_singleton.mp hd
          exact hk hmem'
        · rw [List.mem_append]
          exact or_congr_right List.mem_singleton

/-- Where no code is typed twice the dictionary has every request. -/
theorem separaCodigos_of_nodup {ps : List Peticion}
    (h : (ps.filterMap fun p => codigoTecleado U p.acto).Nodup) : (separaCodigos U ps).1 =
      ps.filterMap fun p => (codigoTecleado U p.acto).map fun c => (c, p) := by
  induction ps using List.reverseRecOn with
  | nil => rfl
  | append_singleton ps p ih =>
    rw [List.filterMap_append] at h
    have hps := ih (List.Nodup.of_append_left h)
    rw [separaCodigos_concat, List.filterMap_append]
    cases hc : codigoTecleado U p.acto with
    | none => simpa [hc] using hps
    | some k =>
      have hk : k ∉ (separaCodigos U ps).1.map Prod.fst := by
        rw [(separaCodigos_keys ps).2]
        intro hmem
        rw [List.filterMap_cons_some (f := fun p : Peticion => codigoTecleado U p.acto) hc] at h
        exact (List.nodup_append.mp h).2.2 k hmem k List.mem_cons_self rfl
      rw [Option.elim_some, asigna_of_not_mem hk, hps]
      simp [hc]

theorem length_separaCodigos (ps : List Peticion) : (separaCodigos U ps).1.length =
    (ps.filterMap fun p => codigoTecleado U p.acto).length ↔
      (ps.filterMap fun p => codigoTecleado U p.acto).Nodup := by
  obtain ⟨hnodup, hmem⟩ := separaCodigos_keys (U := U) ps
  have hset : ((separaCodigos U ps).1.map Prod.fst).toFinset =
      (ps.filterMap fun p => codigoTecleado U p.acto).toFinset := by
    ext c
    rw [List.mem_toFinset, List.mem_toFinset, hmem]
  have hcard := List.toFinset_card_of_nodup hnodup
  rw [hset, List.length_map] at hcard
  rw [← hcard, ← Multiset.coe_card, ← Multiset.coe_nodup]
  exact Multiset.toFinset_card_eq_card_iff_nodup

/-- A request for a bare code: the operation of its code, or none without a lookup. -/
theorem resuelveCodigos_eq (ps : List Peticion) : resuelveCodigos U E ps =
    ((E.codeLookup.elim [] fun lookup => (separaCodigos U ps).1.map
        (opDeCodigo (lookup ((separaCodigos U ps).1.map Prod.fst)))),
      ps.filter (fun p => (codigoTecleado U p.acto).isNone) ++
        E.codeLookup.elim ((separaCodigos U ps).1.map Prod.snd) fun _ => []) := by
  unfold resuelveCodigos
  cases E.codeLookup with
  | none => rfl
  | some lookup => simp [separaCodigos]

/-! ### The search and the match -/

theorem opDeVeredicto_op (v : Option Veredicto) {x : Hallazgo} {op : Op} (h : x.op? = some op) :
    opDeVeredicto ps v x = op := by
  cases x with
  | op o => exact Option.some.inj h
  | ambiguo texto qty opciones item => cases h

/-- Every request has one operation after the match. -/
theorem rel_casa {α : Type} {R : α → Op → Prop} {f : α → Hallazgo} {l : List α}
    (h : ∀ a ∈ l, ∀ v, R a (opDeVeredicto ps v (f a))) :
    Multiset.Rel R l (casa E ps (l.map f)) := by
  unfold casa
  dsimp only
  generalize (if ((l.map f).filter fun h => h.op?.isNone).isEmpty then none
    else E.matchCall (preguntas ((l.map f).filter fun h => h.op?.isNone))) = verdicts
  refine rel_of_filter (fun a => (f a).op?.isSome) ?_ ?_
  · rw [List.filterMap_map]
    refine rel_filterMap (f := fun a => (f a).op?) fun a ha op hop => ?_
    have hsame : opDeVeredicto ps none (f a) = op := opDeVeredicto_op none hop
    rw [← hsame]
    exact h a ha none
  · rw [List.filter_map, List.zipIdx_map, List.map_map]
    have hsub : ∀ a ∈ l.filter fun a => !(f a).op?.isSome, a ∈ l := fun a => List.mem_of_mem_filter
    have hfilter : l.filter ((fun h : Hallazgo => h.op?.isNone) ∘ f) =
        l.filter fun a => !(f a).op?.isSome := by
      refine List.filter_congr fun a _ => ?_
      simp
    rw [hfilter]
    generalize (l.filter fun a => !(f a).op?.isSome) = m at hsub
    have hidx : Multiset.Rel R (m.zipIdx.map Prod.fst) (m.zipIdx.map
        ((fun x : Hallazgo × ℕ => opDeVeredicto ps (veredictoDe verdicts x.2) x.1) ∘
          Prod.map f id)) := by
      rw [← Multiset.map_coe, ← Multiset.map_coe, Multiset.rel_map]
      refine Multiset.rel_refl_of_refl_on fun x hx => ?_
      exact h x.1 (hsub x.1 (List.fst_mem_of_mem_zipIdx hx)) _
    rwa [List.zipIdx_map_fst] at hidx

/-! ### The requests that are left -/

theorem codigo_of_opcionesSpace {k t : Texto} {i : ℕ} {o : Opcion}
    (h : (k, t, i, o) ∈ opcionesSpace ps) : k = o.code := by
  obtain ⟨⟨p, j⟩, -, ho⟩ := List.mem_flatMap.mp h
  obtain ⟨o', -, heq⟩ := List.mem_map.mp ho
  cases heq
  rfl

/-- A request tied to an open product writes its number there. -/
theorem mem_numeros {b : Acto} {i : ℕ} {v : ℤ} (hb : b ∈ peticiones U e actos)
    (hi : nombra U e b = some i) (hv : b.cantidad.valor = some v) : (i, v) ∈ numeros U e actos := by
  rw [numeros, List.mem_append]
  unfold nombra at hi
  cases ho : porOpcion U (opcionesSpace e.productosAbiertos) b with
  | some j =>
    rw [ho] at hi
    obtain rfl : j = i := Option.some.inj hi
    exact .inl (List.mem_filterMap.mpr ⟨b, hb, by simp [escrito, ho, hv]⟩)
  | none =>
    rw [ho, Option.none_or] at hi
    have hcons : b ∈ consultas U e actos := by
      rw [consultas_eq]
      exact List.mem_filter.mpr ⟨hb, by rw [ho]; rfl⟩
    exact .inr (List.mem_filterMap.mpr ⟨b, hcons, by simp [escrito, hi, hv]⟩)

/-- Where the numbers agree the product ends with that of each request for it. -/
theorem qty_of_acordes {b : Acto} {i : ℕ} {p : Producto} {v : ℤ} (hac : Acordes U e actos)
    (hb : b ∈ peticiones U e actos) (hi : nombra U e b = some i)
    (hp : (escribe e.productosAbiertos (numeros U e actos))[i]? = some p)
    (hv : b.cantidad.valor = some v) : p.qty = some v := by
  have hmem := mem_numeros hb hi hv
  rw [getElem?_escribe] at hp
  obtain ⟨q, -, rfl⟩ := Option.map_eq_some_iff.mp hp
  cases hw : (numeros U e actos).reverse.lookup i with
  | none =>
    have hne := List.lookup_eq_none_iff.mp hw (i, v) (List.mem_reverse.mpr hmem)
    simp at hne
  | some w =>
    obtain ⟨l₁, l₂, heq, -⟩ := List.lookup_eq_some_iff.mp hw
    have hw' : (i, w) ∈ (numeros U e actos).reverse := by
      rw [heq]
      exact List.mem_append_right l₁ List.mem_cons_self
    rw [hac i v w hmem (List.mem_reverse.mp hw')]
    rfl

theorem exists_of_nombra {b : Acto} {i : ℕ} (hi : nombra U e b = some i) :
    ∃ p, e.productosAbiertos[i]? = some p := by
  unfold nombra at hi
  rcases Option.or_eq_some_iff.mp hi with ho | ⟨-, ht⟩
  · obtain ⟨⟨k, t, j, o⟩, hf, rfl⟩ := Option.map_eq_some_iff.mp ho
    obtain ⟨p, hp, -⟩ := mem_opcionesSpace (List.mem_of_find?_eq_some hf)
    exact ⟨p, hp⟩
  · obtain ⟨k, t, hmem⟩ := mem_of_ligar ht
    exact mem_itemSpace hmem

/-- A request tied to an open product is carried by a pick of it. -/
theorem lleva_elige {b : Acto} {i : ℕ} {o : Opcion} {qs : List Texto} (hac : Acordes U e actos)
    (hb : b ∈ peticiones U e actos) (hi : nombra U e b = some i)
    (ho : NombraOpcion U e b o ∨ o.Hallada E qs b.productoTexto) :
    (opElige (textoDe e.productosAbiertos i) o).Lleva U E e
      (escribe e.productosAbiertos (numeros U e actos)) b := by
  obtain ⟨p, hp⟩ := exists_of_nombra hi
  have hq : (escribe e.productosAbiertos (numeros U e actos))[i]? =
      some { p with qty := ((numeros U e actos).reverse.lookup i).or p.qty } := by
    rw [getElem?_escribe, hp, Option.map_some]
  have hlleva := Op.Lleva.elige (o := o) hi hq ho fun v hv => qty_of_acordes hac hb hi hq hv
  rwa [textoDe_eq hp]

theorem lleva_elegida {b : Acto} {op : Op} (hac : Acordes U e actos)
    (hb : b ∈ peticiones U e actos) (hop : elegidaPorCodigo U e.productosAbiertos
      (opcionesSpace e.productosAbiertos) b = some op) :
    op.Lleva U E e (escribe e.productosAbiertos (numeros U e actos)) b := by
  obtain ⟨⟨k, t, i, o⟩, hf, rfl⟩ := Option.map_eq_some_iff.mp hop
  have hmem := List.mem_of_find?_eq_some hf
  have htyped : (codesInText U b.productoTexto).contains k = true :=
    List.find?_some (p := fun x : Texto × Texto × ℕ × Opcion =>
      (codesInText U b.productoTexto).contains x.1) hf
  have hcode : o.code ∈ codesInText U b.productoTexto := by
    rw [← codigo_of_opcionesSpace hmem]
    exact List.contains_iff_mem.mp htyped
  obtain ⟨p, hp, ho⟩ := mem_opcionesSpace hmem
  have hi : nombra U e b = some i := by
    unfold nombra porOpcion
    rw [hf]
    rfl
  have hnamed : NombraOpcion U e b o ∨ o.Hallada E [] b.productoTexto :=
    .inl ⟨hcode, p, List.mem_of_getElem? hp, ho⟩
  exact lleva_elige hac hb hi hnamed

theorem textoDe_escribe (ps : List Producto) (ws : List (ℕ × ℤ)) (i : ℕ) :
    textoDe (escribe ps ws) i = textoDe ps i := by
  rw [textoDe, textoDe, getElem?_escribe, Option.map_map]
  rfl

theorem mem_of_elegida {opciones : List Opcion} {v : Option Veredicto} {o : Opcion}
    (h : elegida opciones v = some o) : o ∈ opciones := by
  obtain ⟨w, -, hw⟩ := Option.bind_eq_some_iff.mp h
  split at hw
  · split at hw
    · exact List.mem_of_getElem? hw
    · cases hw
  · cases hw

section Rest

variable {p : Peticion} {qs : List Texto}

theorem lleva_toma {o : Opcion} {prods : List Producto}
    (hprods : prods = escribe e.productosAbiertos (numeros U e actos)) (hac : Acordes U e actos)
    (hb : p.acto ∈ peticiones U e actos) (hitem : nombra U e p.acto = p.item)
    (ho : o.Hallada E qs p.acto.productoTexto) :
    (opToma prods p.item o (p.qty prods)).Lleva U E e prods p.acto := by
  unfold opToma
  split
  · next i hi =>
    rw [hi] at hitem
    rw [hprods, textoDe_escribe]
    exact lleva_elige hac hb hitem (.inr ho)
  · next hnone =>
    rw [hnone] at hitem
    have hqty : p.qty prods = p.acto.cantidad.valor := by
      cases hv : p.acto.cantidad.valor <;> simp [Peticion.qty, hnone, hv]
    rw [hqty]
    exact .hallado hitem ho

theorem qty_of_valor {prods : List Producto} {v : ℤ} (hv : p.acto.cantidad.valor = some v) :
    p.qty prods = some v := by
  rw [Peticion.qty, hv]
  rfl

/-- A request that is searched is carried under any verdict of the match model. -/
theorem lleva_busca {prods : List Producto} (v : Option Veredicto)
    (hprods : prods = escribe e.productosAbiertos (numeros U e actos)) (hac : Acordes U e actos)
    (hb : p.acto ∈ peticiones U e actos) (hitem : nombra U e p.acto = p.item) :
    (opDeVeredicto prods v (busca U prods (E.search qs p.acto.productoTexto) p)).Lleva U E e prods
      p.acto := by
  unfold busca
  dsimp only
  generalize hcands : candidatos U p.acto.productoTexto _ (E.search qs p.acto.productoTexto) = cands
  have hhit {c : Opcion} (hc : c ∈ cands) : c.Hallada E qs p.acto.productoTexto := by
    rw [← hcands] at hc
    obtain ⟨hne, -, h, hh, rfl⟩ := hit_of_mem_candidatos hc
    exact ⟨hne, h, hh, rfl⟩
  split
  · exact .sinCandidatos fun v hv => qty_of_valor hv
  · next c cs =>
    split
    · next exact hex => exact lleva_toma hprods hac hb hitem (hhit (List.mem_of_find?_eq_some hex))
    · split
      · exact lleva_toma hprods hac hb hitem (hhit List.mem_cons_self)
      · split
        · exact .ofrece fun v hv => qty_of_valor hv
        · simp only [opDeVeredicto]
          split
          · next o ho =>
            obtain ⟨d, hd, hcode⟩ := code_of_mem_distintivos (mem_of_elegida ho)
            obtain ⟨hne, h, hh, hdh⟩ := hhit (List.mem_of_mem_take hd)
            exact lleva_toma hprods hac hb hitem ⟨hcode ▸ hne, h, hh, hcode.trans hdh⟩
          · split
            · exact .sinCandidatos fun v hv => qty_of_valor hv
            · exact .ofrece fun v hv => qty_of_valor hv

theorem lleva_codigo {c : Texto} {codes : List Texto} {lookup : List Texto → Texto → Option Articulo}
    {prods : List Producto} (hc : codigoTecleado U p.acto = some c) (hl : E.codeLookup = some lookup) :
    (opDeCodigo (lookup codes) (c, p)).Lleva U E e prods p.acto := by
  unfold opDeCodigo
  split
  · next row hr => exact .tecleado hc hl hr
  · exact .noExiste hc

end Rest

theorem atadas_acto {p : Peticion} (hp : p ∈ atadas U e actos) :
    p.acto ∈ peticiones U e actos ∧ nombra U e p.acto = p.item := by
  obtain ⟨b, hb, rfl⟩ := List.mem_map.mp hp
  rw [consultas_eq] at hb
  obtain ⟨hmem, hnone⟩ := List.mem_filter.mp hb
  refine ⟨hmem, ?_⟩
  rw [nombra, Option.isNone_iff_eq_none.mp hnone, Option.none_or]

/-- The typed codes and the rest, when no code is typed twice. -/
theorem rel_atadas {prods : List Producto} {qs : List Texto}
    (hprods : prods = escribe e.productosAbiertos (numeros U e actos)) (hd : Distintos U e actos)
    (hac : Acordes U e actos) :
    Multiset.Rel (fun p op => Op.Lleva U E e prods (Peticion.acto p) op) (atadas U e actos)
      ↑((resuelveCodigos U E (atadas U e actos)).1 ++
        casa E prods ((resuelveCodigos U E (atadas U e actos)).2.map fun p =>
          busca U prods (E.search qs p.acto.productoTexto) p)) := by
  have hnodup : ((atadas U e actos).filterMap fun p => codigoTecleado U p.acto).Nodup := by
    rwa [atadas, List.filterMap_map]
  have hdict := separaCodigos_of_nodup hnodup
  have hbusca {l : List Peticion} (hl : l ⊆ atadas U e actos) :
      Multiset.Rel (fun p op => Op.Lleva U E e prods (Peticion.acto p) op) l
        (casa E prods (l.map fun p => busca U prods (E.search qs p.acto.productoTexto) p)) :=
    rel_casa fun p hp v => lleva_busca v hprods hac (atadas_acto (hl hp)).1 (atadas_acto (hl hp)).2
  have hresto (p : Peticion) : (codigoTecleado U p.acto).isNone = !(codigoTecleado U p.acto).isSome := by
    cases codigoTecleado U p.acto <;> rfl
  rw [resuelveCodigos_eq]
  cases hl : E.codeLookup with
  | some lookup =>
    simp only [Option.elim_some, List.append_nil, hresto]
    generalize (separaCodigos U (atadas U e actos)).1.map Prod.fst = codes
    have hcodes := rel_filterMap (R := fun p op => Op.Lleva U E e prods (Peticion.acto p) op)
      (f := fun p => ((codigoTecleado U p.acto).map fun c => (c, p)).map
        (opDeCodigo (lookup codes))) (l := atadas U e actos) fun p hp op hop => by
      rw [Option.map_map] at hop
      obtain ⟨c, hc, rfl⟩ := Option.map_eq_some_iff.mp hop
      exact lleva_codigo hc hl
    rw [← List.map_filterMap, ← hdict] at hcodes
    simp only [Option.isSome_map] at hcodes
    have hrest := hbusca (List.filter_subset_self (p := fun p : Peticion =>
      !(codigoTecleado U p.acto).isSome) (atadas U e actos))
    exact rel_of_filter (fun p : Peticion => (codigoTecleado U p.acto).isSome) hcodes hrest
  | none =>
    have hvalues : (separaCodigos U (atadas U e actos)).1.map Prod.snd =
        (atadas U e actos).filter fun p => (codigoTecleado U p.acto).isSome := by
      rw [hdict, List.map_filterMap, ← List.filterMap_eq_filter]
      refine List.filterMap_congr fun p _ => ?_
      cases hc : codigoTecleado U p.acto <;> simp [Option.guard, hc]
    simp only [Option.elim_none, List.nil_append, hresto, hvalues]
    have hperm : ((atadas U e actos : List Peticion) : Multiset Peticion) =
        ↑((atadas U e actos).filter (fun p => !(codigoTecleado U p.acto).isSome) ++
          (atadas U e actos).filter fun p => (codigoTecleado U p.acto).isSome) :=
      Multiset.coe_eq_coe.mpr ((List.perm_append_comm.trans
        (List.filter_append_perm (fun p : Peticion => (codigoTecleado U p.acto).isSome) _)).symm)
    rw [hperm]
    refine hbusca ?_
    rw [List.append_subset]
    exact ⟨List.filter_subset_self _, List.filter_subset_self _⟩

/-- Every act has its own where no code is typed twice and the numbers agree. -/
theorem servidos_of_distintos {ops : List Op} (h : resolver U E actos e = .ok (ops, e'))
    (hd : Distintos U e actos) (hac : Acordes U e actos) :
    Servidos U E e (escribe e.productosAbiertos (numeros U e actos)) actos ops := by
  obtain ⟨rs, hrs, rfl⟩ := resolver_ops h
  refine servidos_of_peticiones hrs ?_
  refine rel_of_filter (fun b => (porOpcion U (opcionesSpace e.productosAbiertos) b).isSome) ?_ ?_
  · have hrel := rel_filterMap (R := fun b op => Op.Lleva U E e
        (escribe e.productosAbiertos (numeros U e actos)) b op)
      (f := elegidaPorCodigo U e.productosAbiertos (opcionesSpace e.productosAbiertos))
      fun b hb op hop => lleva_elegida hac hb hop
    simpa only [elegidaPorCodigo, porOpcion, Option.isSome_map] using hrel
  · simp only [Option.not_isSome, ← consultas_eq]
    have hrel := @rel_atadas U E e actos _
      ((resuelveCodigos U E (atadas U e actos)).2.map fun p => p.acto.productoTexto) rfl hd hac
    rw [atadas, ← Multiset.map_coe, Multiset.rel_map_left] at hrel
    exact hrel

/-! ### As many operations as acts -/

theorem length_of_mapM {rs : List (List Op × List Acto)}
    (h : actos.mapM (resuelveActo U e) = .ok rs) :
    actos.length = (rs.flatMap Prod.fst).length + (peticiones U e actos).length := by
  induction actos generalizing rs with
  | nil =>
    cases h
    rfl
  | cons a as ih =>
    rw [List.mapM_cons] at h
    obtain ⟨r, hr, h⟩ := bind_eq_ok h
    obtain ⟨rs', hrs, h⟩ := bind_eq_ok h
    cases h
    have hlen := ih hrs
    rw [peticiones_cons, pedidos_of_ok hr, List.flatMap_cons, List.length_append, List.length_append,
      List.length_cons]
    rcases resuelveActo_uno hr with ⟨op, rfl, -, -⟩ | ⟨b, rfl⟩
    · rw [List.length_singleton, List.length_nil]
      omega
    · rw [List.length_singleton, List.length_nil]
      omega

theorem length_casa (ps : List Producto) (hs : List Hallazgo) : (casa E ps hs).length = hs.length := by
  have hrel := @rel_casa E ps _ (fun _ _ => True) id hs fun _ _ _ => trivial
  rw [List.map_id] at hrel
  exact (Multiset.card_eq_card_of_rel hrel).symm

theorem length_filterMap_add {α β : Type} (f : α → Option β) (l : List α) :
    l.length = (l.filterMap f).length + (l.filter fun a => (f a).isNone).length := by
  induction l with
  | nil => rfl
  | cons a l ih =>
    cases hf : f a with
    | none =>
      rw [List.filterMap_cons_none hf, List.filter_cons_of_pos (by rw [hf]; rfl), List.length_cons,
        List.length_cons]
      omega
    | some b =>
      rw [List.filterMap_cons_some hf, List.filter_cons_of_neg (by rw [hf]; exact Bool.false_ne_true),
        List.length_cons, List.length_cons]
      omega

/-- There are as many operations as acts exactly when no code is typed twice. -/
theorem length_resolver {ops : List Op} (h : resolver U E actos e = .ok (ops, e')) :
    ops.length = actos.length ↔ Distintos U e actos := by
  obtain ⟨rs, hrs, rfl⟩ := resolver_ops h
  have hactos := length_of_mapM hrs
  have hpet := length_filterMap_add
    (elegidaPorCodigo U e.productosAbiertos (opcionesSpace e.productosAbiertos)) (peticiones U e actos)
  have hcons : (consultas U e actos).length = ((peticiones U e actos).filter fun b =>
      (elegidaPorCodigo U e.productosAbiertos (opcionesSpace e.productosAbiertos) b).isNone).length := by
    rw [consultas_eq]
    simp only [elegidaPorCodigo, porOpcion, Option.isNone_map]
  have hsplit := length_filterMap_add (fun p : Peticion => codigoTecleado U p.acto) (atadas U e actos)
  have hatadas : (atadas U e actos).length = (consultas U e actos).length := List.length_map ..
  have hcod : (resuelveCodigos U E (atadas U e actos)).1.length +
      (resuelveCodigos U E (atadas U e actos)).2.length =
      (separaCodigos U (atadas U e actos)).1.length +
        ((atadas U e actos).filter fun p => (codigoTecleado U p.acto).isNone).length := by
    rw [resuelveCodigos_eq]
    cases E.codeLookup with
    | none => simp [Nat.add_comm]
    | some lookup => simp
  have hdict := length_separaCodigos (U := U) (atadas U e actos)
  have hcodes : Distintos U e actos ↔
      ((atadas U e actos).filterMap fun p => codigoTecleado U p.acto).Nodup := by
    rw [Distintos, atadas, List.filterMap_map]
    rfl
  rw [hcodes, ← hdict]
  simp only [List.length_append, length_casa, List.length_map]
  constructor
  · intro h
    omega
  · intro h
    omega

theorem distintos_of_servidos {ops : List Op} (h : resolver U E actos e = .ok (ops, e'))
    (hs : Servidos U E e ps actos ops) : Distintos U e actos :=
  (length_resolver h).mp (Multiset.card_eq_card_of_rel hs).symm

/-! ### Where the lines are added -/

theorem borradas_toma (s : Estado) (item : Option ℕ) (o : Opcion) (qty : Option ℤ) :
    (opToma ps item o qty).borradas s = [] := by
  cases item <;> rfl

theorem borradas_busca (s : Estado) (v : Option Veredicto) (hits : List Hit) (p : Peticion) :
    (opDeVeredicto ps v (busca U ps hits p)).borradas s = [] := by
  unfold busca
  dsimp only
  split
  · rfl
  · split
    · exact borradas_toma s ..
    · split
      · exact borradas_toma s ..
      · split
        · rfl
        · simp only [opDeVeredicto]
          split
          · exact borradas_toma s ..
          · split <;> rfl

/-- The lines are added after the acts that can remove others. -/
theorem resolver_append {ops : List Op} (h : resolver U E actos e = .ok (ops, e')) :
    ∃ xs ys, ops = xs ++ ys ∧ (∀ op ∈ xs, op.leida = none) ∧
      ∀ op ∈ ys, ∀ s : Estado, op.borradas s = [] := by
  obtain ⟨rs, hrs, rfl⟩ := resolver_ops h
  refine ⟨_, _, rfl, ?_, ?_⟩
  · intro op hop
    obtain ⟨r, hr, hopr⟩ := List.mem_flatMap.mp hop
    obtain ⟨a, -, hok⟩ := exists_of_mapM_ok hrs hr
    rcases resuelveActo_uno hok with ⟨o, rfl, hleida, -⟩ | ⟨b, rfl⟩
    · obtain rfl := List.mem_singleton.mp hopr
      exact hleida
    · cases hopr
  · intro op hop s
    rcases List.mem_append.mp hop with hop | hop
    · obtain ⟨b, -, hb⟩ := List.mem_filterMap.mp hop
      obtain ⟨x, -, rfl⟩ := Option.map_eq_some_iff.mp hb
      rfl
    · rcases List.mem_append.mp hop with hop | hop
      · rcases resuelveCodigos_ops hop with ⟨c, rfl⟩ | ⟨p, -, c, lookup, codes, row, -, -, -, rfl⟩ <;> rfl
      · obtain ⟨x, hx, v, rfl⟩ := mem_casa hop
        obtain ⟨p, -, rfl⟩ := List.mem_map.mp hx
        exact borradas_busca s v _ p

/-! ## No request is dropped -/

theorem productos_resolver {ops : List Op} (h : resolver U E actos e = .ok (ops, e')) :
    e'.productosAbiertos = escribe e.productosAbiertos (numeros U e actos) := by
  rw [congrArg Estado.productosAbiertos (resolver_productos h)]
  exact conProductos_productos e.openItems (recontados_escribe _ _)

/-- Whatever the services answer, every act has an operation of its own, which carries its product
and its number, if no code is typed twice and the numbers for one open product agree; where a code
is typed twice some act has none. The reducer keeps every line the operations add, in any state,
except for a photo's while another proposal is alive: then it keeps those that have been put
elsewhere before the end of the turn, and those asked for with two numbers. -/
theorem requests_kept {ops : List Op} (h : resolver U E actos e = .ok (ops, e')) :
    (Distintos U e actos → Acordes U e actos → Servidos U E e e'.productosAbiertos actos ops) ∧
    (Servidos U E e e'.productosAbiertos actos ops → Distintos U e actos) ∧
    ∀ fm s g, AddsKept fm s g ops ↔ (fm = true → (tras fm s g ops).e.siNos ≠ [] →
      ∀ op ∈ ops, ∀ l, op.leida = some l →
        Guardado (tras fm s g ops).e l.code ∨ Disputada fm s g ops l.code) := by
  rw [productos_resolver h]
  refine ⟨servidos_of_distintos h, distintos_of_servidos h, ?_⟩
  intro fm s g
  cases fm with
  | true => rw [addsKept_media_iff, forall_prop_of_true rfl]
  | false =>
    obtain ⟨xs, ys, rfl, hxs, hys⟩ := resolver_append h
    exact iff_of_true (addsKept_of_append hxs hys) nofun

/-- The catalogue of the black kajal, with a lookup of its code. -/
def conCodigo : Entorno :=
  { soloKajal with codeLookup := some fun _ c =>
      if c = ("KJ401" : Texto) then some ⟨"KJ401", "KAJAL NEGRO", "ROC"⟩ else none }

theorem requests_kept_by_name_and_code : ∃ ops e',
    resolver .latin conCodigo [pide "kajal negro" 2, pide "KJ401" 3] {} = .ok (ops, e') ∧
      Servidos .latin conCodigo {} e'.productosAbiertos [pide "kajal negro" 2, pide "KJ401" 3] ops ∧
      AddsKept false e' none ops := by
  have hrun : ((resolver .latin conCodigo [pide "kajal negro" 2, pide "KJ401" 3] {}).toOption.map
      fun r => r.1.length) = some 2 := by
    decide
  obtain ⟨⟨ops, e'⟩, hres, -⟩ := exists_of_toOption_map hrun
  have hnumeros : numeros .latin {} [pide "kajal negro" 2, pide "KJ401" 3] = [] := by decide
  have hdistintos : Distintos .latin {} [pide "kajal negro" 2, pide "KJ401" 3] := by
    unfold Distintos
    decide
  obtain ⟨hservidos, -, hkept⟩ := requests_kept hres
  refine ⟨ops, e', hres, hservidos hdistintos ?_, (hkept false e' none).mpr nofun⟩
  intro i v w hv
  rw [hnumeros] at hv
  exact absurd hv List.not_mem_nil

/-- Two of a code and three of the same code in one message: the first request is gone. -/
theorem typed_twice_is_asked_once :
    ¬ ∀ E actos e ops e', resolver .latin E actos e = .ok (ops, e') →
      Servidos .latin E e e'.productosAbiertos actos ops ∧ ∀ fm s g, AddsKept fm s g ops := by
  intro h
  have hrun : ((resolver .latin conCodigo [pide "KJ401" 2, pide "KJ401" 3] {}).toOption.map
      fun r => r.1.length) = some 1 := by
    decide
  obtain ⟨⟨ops, e'⟩, hres, hone⟩ := exists_of_toOption_map hrun
  have hcard := Multiset.card_eq_card_of_rel (h _ _ _ _ _ hres).1
  rw [Multiset.coe_card, Multiset.coe_card, hone] at hcard
  cases hcard

end Chatlink.Agent
