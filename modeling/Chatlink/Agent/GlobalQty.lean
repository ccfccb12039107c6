import Chatlink.Agent.AddOrder

/-!
# One number for the whole message

Rule 11 gives the number that the client says for the whole message ("de cada uno cuatro") to the
lines that this turn added without a number, and to the products this turn opened without one. The
rule keeps no record of the turn of an open product, and it knows the lines by their codes: a line
that was removed and entered again with its own number has the code of one that came without.
-/
namespace Chatlink.Agent

open Lists

variable {fm : Bool} {e : Estado} {g : Option ℤ} {ops : List Op} {code : Texto}

/-! ## The number of the message -/

/-- The global quantity after the operations: the last one said, or the one of the preprocessor. -/
def globalDe (g : Option ℤ) (ops : List Op) : Option ℤ :=
  ops.foldl (fun g op => match op with
    | .cantidadGlobal (some n) => if n = 0 then g else some n
    | _ => g) g

theorem paso_globalDe (fm : Bool) (t : Trabajo) (op : Op) :
    (paso fm t op).cantidadGlobal = globalDe t.cantidadGlobal [op] := by
  cases op with
  | cantidadGlobal valor =>
    cases valor with
    | none => rfl
    | some n =>
      simp only [paso, globalDe, List.foldl_cons, List.foldl_nil]
      split <;> rfl
  | _ =>
    rcases paso_cantidadGlobal fm t _ with h | ⟨n, hop, -⟩
    · exact h
    · cases hop

theorem tras_cantidadGlobal : (tras fm e g ops).cantidadGlobal = globalDe g ops := by
  induction ops using List.reverseRecOn with
  | nil => rfl
  | append_singleton ops op ih =>
    rw [tras_concat, paso_globalDe, ih]
    simp [globalDe]

/-! ## The lines that came without a number -/

/-- The operation adds a line of `code` without a number. -/
def Op.Estrena (fm : Bool) (e : Estado) (code : Texto) (op : Op) : Prop :=
  e.linea code = none ∧ (code, none) ∈ op.pedidas fm e

/-- In this turn a line of `code` was added without a number. -/
def EntroSinNumero (fm : Bool) (e : Estado) (g : Option ℤ) (ops : List Op) (code : Texto) : Prop :=
  ∃ xs op ys, ops = xs ++ op :: ys ∧ op.Estrena fm (tras fm e g xs).e code

/-- The line of `code` is one of this turn that came without a number: it stands since. -/
def VinoSinNumero (fm : Bool) (e : Estado) (g : Option ℤ) (ops : List Op) (code : Texto) : Prop :=
  ∃ xs op ys, ops = xs ++ op :: ys ∧ op.Estrena fm (tras fm e g xs).e code ∧
    ∀ zs ws, ys = zs ++ ws → (tras fm e g (xs ++ op :: zs)).e.linea code ≠ none

theorem VinoSinNumero.entro (h : VinoSinNumero fm e g ops code) : EntroSinNumero fm e g ops code := by
  obtain ⟨xs, op, ys, hops, hop, -⟩ := h
  exact ⟨xs, op, ys, hops, hop⟩

theorem entroSinNumero_concat (op : Op) : EntroSinNumero fm e g (ops ++ [op]) code ↔
    EntroSinNumero fm e g ops code ∨ op.Estrena fm (tras fm e g ops).e code := by
  constructor
  · rintro ⟨xs, o, ys, hops, ho⟩
    rcases List.eq_nil_or_concat' ys with rfl | ⟨ys, y, rfl⟩
    · obtain ⟨rfl, h⟩ := List.append_inj' hops rfl
      obtain rfl := (List.cons.inj h).1
      exact Or.inr ho
    · rw [← List.cons_append, ← List.append_assoc] at hops
      obtain ⟨rfl, -⟩ := List.append_inj' hops rfl
      exact Or.inl ⟨xs, o, ys, rfl, ho⟩
  · rintro (⟨xs, o, ys, rfl, ho⟩ | ho)
    · exact ⟨xs, o, ys ++ [op], by simp, ho⟩
    · exact ⟨ops, op, [], rfl, ho⟩

theorem add_addedNoQty (t : Trabajo) (c name brand : Texto) (qty : Option ℤ)
    (fuente aliasTexto : Texto) :
    code ∈ (t.add c name brand qty fuente aliasTexto).addedNoQty ↔
      code ∈ t.addedNoQty ∨ (t.e.linea code = none ∧ (code, none) ∈ [(c, qty)]) := by
  have hpair : (code, none) ∈ [(c, qty)] ↔ code = c ∧ qty = none := by
    rw [List.mem_singleton, Prod.mk.injEq, eq_comm (a := none)]
  rw [hpair]
  rcases t.add_cases c name brand qty fuente aliasTexto with
    ⟨ln, hln, -, h⟩ | ⟨ln, q, hln, -, -, h⟩ | ⟨hln, h⟩
  · rw [h]
    refine ⟨Or.inl, ?_⟩
    rintro (hmem | ⟨hnone, rfl, -⟩)
    · exact hmem
    · simp [hln] at hnone
  · rw [h]
    refine ⟨Or.inl, ?_⟩
    rintro (hmem | ⟨hnone, rfl, -⟩)
    · exact hmem
    · simp [hln] at hnone
  · rw [h]
    cases qty with
    | some q => simp [Trabajo.addNueva]
    | none =>
      simp only [Trabajo.addNueva, Trabajo.emit, if_true, List.mem_append, List.mem_singleton]
      constructor
      · rintro (hmem | rfl)
        · exact Or.inl hmem
        · exact Or.inr ⟨hln, rfl, trivial⟩
      · rintro (hmem | ⟨-, rfl, -⟩)
        · exact Or.inl hmem
        · exact Or.inr rfl

theorem mem_addLineas_addedNoQty (fuente : Texto) (items : List Linea) (t : Trabajo) :
    code ∈ (items.foldl (Trabajo.addLinea fuente) t).addedNoQty ↔ code ∈ t.addedNoQty := by
  refine foldl_keeps (P := fun u : Trabajo => code ∈ u.addedNoQty ↔ code ∈ t.addedNoQty) _
    (fun u l _ hu => ?_) Iff.rfl
  rw [Trabajo.addLinea, add_addedNoQty, hu]
  simp

theorem setQty_addedNoQty (t : Trabajo) (code name : Texto) (modo : Modo) (valor : Option ℤ) :
    (t.setQty code name modo valor).addedNoQty = t.addedNoQty := by
  rcases t.setQty_cases code name modo valor with
    ⟨-, h⟩ | ⟨ln, -, -, h⟩ | ⟨ln, v, -, -, h⟩ | ⟨ln, -, -, h⟩ | ⟨ln, q, -, h⟩
  all_goals rw [h]; rfl

/-- One operation records exactly the line it adds without a number. -/
theorem mem_paso_addedNoQty (fm : Bool) (t : Trabajo) (op : Op) :
    code ∈ (paso fm t op).addedNoQty ↔ code ∈ t.addedNoQty ∨ op.Estrena fm t.e code := by
  have hsame {u : Trabajo} (hu : u.addedNoQty = t.addedNoQty)
      (hop : (code, none) ∉ op.pedidas fm t.e) :
      code ∈ u.addedNoQty ↔ code ∈ t.addedNoQty ∨ op.Estrena fm t.e code := by
    rw [hu]
    exact ⟨Or.inl, fun h => h.resolve_right fun hs => hop hs.2⟩
  cases op with
  | add c name brand qty fuente =>
    cases fm with
    | true => exact hsame rfl List.not_mem_nil
    | false => exact add_addedNoQty t c name brand qty fuente []
  | modificar c name modo valor b vn =>
    simp only [paso]
    split
    · split
      · exact hsame rfl List.not_mem_nil
      · split
        · exact hsame rfl List.not_mem_nil
        · exact hsame rfl List.not_mem_nil
    · exact hsame (setQty_addedNoQty t c name modo valor) List.not_mem_nil
  | elige item c name brand fuente =>
    simp only [paso, Op.Estrena, Op.pedidas]
    split
    · next p hp =>
      rw [hp]
      exact add_addedNoQty (t.quita (.producto p)) c name brand p.qty fuente item
    · next hp =>
      rw [hp]
      exact add_addedNoQty t c name brand none fuente item
  | eligeQty c valor =>
    simp only [paso]
    split
    · exact hsame rfl List.not_mem_nil
    · split
      · split
        · exact hsame rfl List.not_mem_nil
        · exact hsame rfl List.not_mem_nil
      · exact hsame rfl List.not_mem_nil
  | confirmar =>
    simp only [paso]
    split
    · exact hsame rfl (by simp_all [Op.pedidas])
    · next v hv =>
      have hnum : (code, none) ∉ Op.confirmar.pedidas fm t.e := by
        simp only [Op.pedidas, hv]
        split
        · simp
        · exact List.not_mem_nil
      rw [or_iff_left fun hs => hnum hs.2]
      unfold ejecuta
      cases v.tipo with
      | cierre =>
        dsimp only
        rw [show code ∈ t.addedNoQty ↔ code ∈ (t.quita (.siNo v)).addedNoQty from Iff.rfl,
          ← (revision_quieto _ (t.quita (.siNo v))).addedNoQty]
        rfl
      | baja =>
        dsimp only
        split <;> rfl
      | media => exact mem_addLineas_addedNoQty "media" v.items (t.quita (.siNo v))
      | repetir => exact mem_addLineas_addedNoQty "repetir" v.items (t.quita (.siNo v))
  | _ => exact hsame (paso_quieto fm t rfl).addedNoQty List.not_mem_nil

/-- The codes that rule 11 looks at are those that came without a number, wherever their lines are
now. -/
theorem mem_addedNoQty :
    code ∈ (tras fm e g ops).addedNoQty ↔ EntroSinNumero fm e g ops code := by
  induction ops using List.reverseRecOn with
  | nil =>
    refine iff_of_false List.not_mem_nil ?_
    rintro ⟨xs, op, ys, h, -⟩
    exact absurd h.symm (by simp)
  | append_singleton ops op ih => rw [tras_concat, mem_paso_addedNoQty, ih, entroSinNumero_concat]

/-! ## What is open, with its number -/

/-- What the client asked for and is not settled: his words and the quantity. -/
def Item.pedido? : Item → Option (Texto × Option ℤ)
  | .producto p => some (p.texto, p.qty)
  | .revisar texto qty => some (texto, qty)
  | _ => none

theorem contado_pedido? (hubo : Bool) (i : Item) : (i.contado hubo).pedido? = i.pedido? := by
  cases i <;> rfl

theorem sinMarca_pedido? (i : Item) : i.sinMarca.pedido? = i.pedido? := by
  cases i <;> rfl

/-- Products that leave for review go with their number. -/
theorem revisa_pedidos (ps : List Producto) (items : List Item)
    (h : (ps.map Item.producto).Subperm items) :
    ((revisa ps items).filterMap Item.pedido?).Perm (items.filterMap Item.pedido?) := by
  induction ps generalizing items with
  | nil => exact List.Perm.refl _
  | cons p ps ih =>
    rw [List.map_cons] at h
    have hp : Item.producto p ∈ items := h.subset List.mem_cons_self
    have hsplit := List.perm_cons_erase hp
    have hrest : (ps.map Item.producto).Subperm (items.erase (.producto p)) :=
      (List.subperm_cons (.producto p)).mp (h.trans hsplit.subperm)
    refine (ih (items.erase (.producto p) ++ [.revisar p.texto p.qty])
      (hrest.trans (List.sublist_append_left _ _).subperm)).trans ?_
    rw [List.filterMap_append]
    refine (List.perm_append_comm).trans ?_
    exact (hsplit.filterMap Item.pedido?).symm

theorem agotados_pedidos (items : List Item) :
    ((agotados items).filterMap Item.pedido?).Perm (items.filterMap Item.pedido?) := by
  refine revisa_pedidos ((items.filterMap Item.producto?).filter Producto.revisar) items ?_
  have hsub : ((items.filterMap Item.producto?).map Item.producto).Sublist items := by
    induction items with
    | nil => exact List.Sublist.refl []
    | cons i items ih =>
      cases i with
      | producto p => exact ih.cons_cons (.producto p)
      | revisar texto qty => exact ih.cons _
      | conflicto c => exact ih.cons _
      | siNo v => exact ih.cons _
  exact ((List.filter_sublist.map _).trans hsub).subperm

/-- After rule 11 the open quantities are settled. -/
theorem limpia_regla7_pedidos (t : Trabajo) :
    ((limpia (regla7 t)).e.openItems.filterMap Item.pedido?).Perm
      (t.e.openItems.filterMap Item.pedido?) := by
  have hitems : (limpia (regla7 t)).e.openItems =
      (agotados (t.e.openItems.map (Item.contado (t.hechos.any Hecho.progreso)))).map
        Item.sinMarca := by
    rw [← regla7Items_fst _ t.hechos t.e.openItems t.hechos]
    rfl
  rw [hitems, filterMap_map_of_eq sinMarca_pedido?]
  refine (agotados_pedidos _).trans ?_
  rw [filterMap_map_of_eq fun i => contado_pedido? _ i]

/-! ## Only what is of this turn -/

/-- The state that rule 11 finds. -/
def antesDe11 (fm : Bool) (e : Estado) (g : Option ℤ) (ops : List Op) : Trabajo :=
  regla3 (reglaMedia (tras fm e g ops))

/-- The quantity that the message gives to an item: to a product without its own that an operation of
this turn opened, which is what its mark says. -/
def Item.delTurno (g : Option ℤ) : Item → Item
  | .producto p => .producto (if p.nuevo then { p with qty := p.qty.orElse fun _ => g } else p)
  | i => i

/-- The global quantity goes to the lines of this turn that came without a number and to the
products of this turn without one. Every other line and open item keeps its quantity. -/
structure SoloEsteTurno (fm : Bool) (e : Estado) (g : Option ℤ) (ops : List Op) : Prop where
  sinNumero : ∀ code l, (antesDe11 fm e g ops).e.linea code = some l →
    VinoSinNumero fm e g ops code →
      (aplicar e ops fm g).estado.linea code = some { l with qty := (globalDe g ops).getD l.qty }
  demas : ∀ code l, (antesDe11 fm e g ops).e.linea code = some l →
    ¬ VinoSinNumero fm e g ops code → (aplicar e ops fm g).estado.linea code = some l
  ausente : ∀ code, (antesDe11 fm e g ops).e.linea code = none →
    (aplicar e ops fm g).estado.linea code = none
  abiertos : ((aplicar e ops fm g).estado.openItems.filterMap Item.pedido?).Perm
    (((antesDe11 fm e g ops).e.openItems.map (Item.delTurno (globalDe g ops))).filterMap
      Item.pedido?)

/-- No quantity is said for the whole message, or all that rule 11 would fill is of this turn: the
lines whose codes came without a number stand since they came (or have that quantity), and the open
products without a quantity are new. -/
def TodoDelTurno (fm : Bool) (e : Estado) (g : Option ℤ) (ops : List Op) : Prop :=
  ∀ n, globalDe g ops = some n →
    (∀ code l, (antesDe11 fm e g ops).e.linea code = some l → EntroSinNumero fm e g ops code →
      VinoSinNumero fm e g ops code ∨ l.qty = n) ∧
    ∀ p ∈ (antesDe11 fm e g ops).e.productosAbiertos, p.qty = none → p.nuevo

theorem antesDe11_frame : (antesDe11 fm e g ops).cantidadGlobal = globalDe g ops ∧
    (antesDe11 fm e g ops).addedNoQty = (tras fm e g ops).addedNoQty := by
  obtain ⟨-, hadded, hglobal⟩ := reglaMedia_frame (tras fm e g ops)
  unfold antesDe11
  exact ⟨by rw [regla3_cantidadGlobal, hglobal, tras_cantidadGlobal],
    by rw [regla3_addedNoQty, hadded]⟩

/-- The lines after a turn. -/
theorem aplicar_linea (code : Texto) : (aplicar e ops fm g).estado.linea code =
    (regla11 (antesDe11 fm e g ops)).e.linea code := by
  rw [aplicar_estado]
  rfl

theorem aplicar_linea_of_none (hg : globalDe g ops = none) (code : Texto) :
    (aplicar e ops fm g).estado.linea code = (antesDe11 fm e g ops).e.linea code := by
  rw [aplicar_linea, regla11, antesDe11_frame.1, hg]

theorem aplicar_linea_of_some {n : ℤ} (hg : globalDe g ops = some n) {l : Linea}
    (hl : (antesDe11 fm e g ops).e.linea code = some l) :
    (EntroSinNumero fm e g ops code →
      (aplicar e ops fm g).estado.linea code = some { l with qty := n }) ∧
    (¬ EntroSinNumero fm e g ops code → (aplicar e ops fm g).estado.linea code = some l) := by
  have hline : (aplicar e ops fm g).estado.linea code =
      if code ∈ (antesDe11 fm e g ops).addedNoQty then
        ((antesDe11 fm e g ops).e.linea code).map fun l => { l with qty := n }
      else (antesDe11 fm e g ops).e.linea code := by
    rw [aplicar_linea, regla11, antesDe11_frame.1, hg]
    exact regla11Lineas_linea n _ _ code
  rw [antesDe11_frame.2, hl] at hline
  constructor
  · intro h
    rw [hline, if_pos (mem_addedNoQty.mpr h)]
    rfl
  · intro h
    rw [hline, if_neg fun hmem => h (mem_addedNoQty.mp hmem)]

theorem aplicar_abiertos : ((aplicar e ops fm g).estado.openItems.filterMap Item.pedido?).Perm
    ((regla11 (antesDe11 fm e g ops)).e.openItems.filterMap Item.pedido?) := by
  rw [aplicar_estado]
  exact limpia_regla7_pedidos (regla11 (antesDe11 fm e g ops))

/-- Counted among what is open: an item without a quantity. -/
def Item.sinQty (i : Item) : Bool := i.pedido?.any fun x => x.2.isNone

theorem countP_pedidos (items : List Item) (f : Item → Item) :
    ((items.map f).filterMap Item.pedido?).countP (fun x => x.2.isNone) =
      items.countP fun i => (f i).sinQty := by
  rw [List.countP_filterMap, List.countP_map]
  refine List.countP_congr fun i _ => ?_
  unfold Item.sinQty Function.comp
  dsimp only
  cases (f i).pedido? <;> rfl

theorem conQty_eq_self {p : Producto} {g : Option ℤ} (h : (p.qty.orElse fun _ => g) = p.qty) :
    ({ p with qty := p.qty.orElse fun _ => g } : Producto) = p := by
  cases p
  rw [Producto.mk.injEq]
  exact ⟨rfl, h, rfl, rfl, rfl, rfl, rfl⟩

/-- Rule 11 and its purpose differ on an open product of an earlier turn without a quantity. -/
theorem regla11Item_eq_delTurno {n : ℤ} {i : Item}
    (h : ∀ p, i = .producto p → p.qty = none → p.nuevo) : regla11Item n i = i.delTurno (some n) := by
  cases i with
  | producto p =>
    unfold regla11Item Item.delTurno
    dsimp only
    split
    · rfl
    · next hn =>
      rw [conQty_eq_self]
      cases hq : p.qty with
      | none => exact absurd (h p rfl hq) hn
      | some q => rfl
  | revisar texto qty => rfl
  | conflicto c => rfl
  | siNo v => rfl

theorem delTurno_none (i : Item) : i.delTurno none = i := by
  cases i with
  | producto p =>
    unfold Item.delTurno
    dsimp only
    rw [conQty_eq_self (by cases p.qty <;> rfl), ite_self]
  | revisar texto qty => rfl
  | conflicto c => rfl
  | siNo v => rfl

/-- The global quantity touches only this turn exactly when what it would fill is of this turn. -/
theorem soloEsteTurno_iff (fm : Bool) (e : Estado) (g : Option ℤ) (ops : List Op) :
    SoloEsteTurno fm e g ops ↔ TodoDelTurno fm e g ops := by
  constructor
  · intro h n hn
    constructor
    · intro code l hl hentro
      by_contra hno
      rw [not_or] at hno
      have h1 := h.demas code l hl hno.1
      have h2 := (aplicar_linea_of_some hn hl).1 hentro
      rw [h1] at h2
      exact hno.2 (congrArg Linea.qty (Option.some.inj h2))
    · intro p hp hq
      have hcount := (aplicar_abiertos.symm.trans h.abiertos).countP_eq fun x => x.2.isNone
      rw [regla11_openItems, antesDe11_frame.1, hn] at hcount
      dsimp only at hcount
      rw [countP_pedidos, countP_pedidos] at hcount
      have hmem := mem_productosAbiertos.mp hp
      -- no product is without a quantity after the rule, so none is without one on the other side
      have himp : ∀ i ∈ (antesDe11 fm e g ops).e.openItems, (regla11Item n i).sinQty →
          (i.delTurno (some n)).sinQty := by
        intro i _ hi
        cases i with
        | producto p => cases hqp : p.qty <;> simp [regla11Item, Item.sinQty, Item.pedido?, hqp] at hi
        | revisar texto qty => exact hi
        | conflicto c => exact hi
        | siNo v => exact hi
      by_contra hold
      have hbad : ((Item.producto p).delTurno (some n)).sinQty := by
        simp [Item.delTurno, Item.sinQty, Item.pedido?, hold, hq]
      have := imp_of_countP_eq himp hcount.symm _ hmem hbad
      simp [regla11Item, Item.sinQty, Item.pedido?, hq] at this
  · intro h
    cases hg : globalDe g ops with
    | none =>
      refine ⟨fun code l hl _ => ?_, fun code l hl _ => ?_, fun code hl => ?_, ?_⟩
      · rw [aplicar_linea_of_none hg, hl, hg]
        rfl
      · rw [aplicar_linea_of_none hg, hl]
      · rw [aplicar_linea_of_none hg, hl]
      · have hab := @aplicar_abiertos fm e g ops
        rw [regla11_openItems, antesDe11_frame.1, hg] at hab
        rw [hg, List.map_congr_left fun i _ => delTurno_none i, List.map_id']
        exact hab
    | some n =>
      obtain ⟨hlines, hprods⟩ := h n hg
      refine ⟨fun code l hl hv => ?_, fun code l hl hv => ?_, fun code hl => ?_, ?_⟩
      · rw [(aplicar_linea_of_some hg hl).1 hv.entro, hg]
        rfl
      · by_cases hentro : EntroSinNumero fm e g ops code
        · obtain rfl := (hlines code l hl hentro).resolve_left hv
          exact (aplicar_linea_of_some hg hl).1 hentro
        · exact (aplicar_linea_of_some hg hl).2 hentro
      · rw [aplicar_linea, regla11, antesDe11_frame.1, hg]
        refine (regla11Lineas_linea n _ _ code).trans ?_
        rw [hl]
        split <;> rfl
      · have hab := @aplicar_abiertos fm e g ops
        rw [regla11_openItems, antesDe11_frame.1, hg] at hab
        have hmap : (antesDe11 fm e g ops).e.openItems.map (regla11Item n) =
            (antesDe11 fm e g ops).e.openItems.map (Item.delTurno (some n)) :=
          List.map_congr_left fun i hi => regla11Item_eq_delTurno fun p hp hq =>
            hprods p (mem_productosAbiertos.mpr (hp ▸ hi)) hq
        rw [hg, ← hmap]
        exact hab

/-- The products of an earlier turn get the number of this one: "de cada uno cuatro" about two new
lines sets four of the serum that waits for an answer. -/
theorem old_serum_gets_four :
    ¬ SoloEsteTurno false
      { openItems := [.producto { texto := "serum noche", qty := none }] } (some 4)
      [.add "KJ401" "KAJAL NEGRO" [] none "pedidos"] := by
  intro h
  have hab := h.abiertos
  revert hab
  decide

end Chatlink.Agent
