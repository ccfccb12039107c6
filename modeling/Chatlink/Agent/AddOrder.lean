import Chatlink.Agent.OpenItems

/-!
# The order of the requests of a message

The resolver hands the requests of one message on in an order of its own: typed codes, hits of
the search, verdicts. What a message leaves of one code is read off the requests for that code
alone, and it depends on their order in one case: a line that enters without a number has the
quantity 1, and the number that follows is then compared with it.
-/
namespace Chatlink.Agent

open Lists

variable {fm : Bool} {e : Estado} {g : Option ℤ} {ops : List Op} {code : Texto} {t : Trabajo}

/-! ## What the order holds of one code -/

/-- The quantity of a code, the numbers its pending conflicts offer, and whether its line came
this turn without a number. -/
@[ext]
structure Vista where
  qty : Option ℤ
  opciones : List (List ℤ)
  sinNumero : Bool

/-- The numbers the pending conflicts of a code offer. -/
def Estado.opcionesDe (e : Estado) (code : Texto) : List (List ℤ) :=
  (e.conflictos.filter fun c => c.code = code).map Conflicto.opcionesQty

def Trabajo.vista (t : Trabajo) (code : Texto) : Vista :=
  ⟨(t.e.linea code).map Linea.qty, t.e.opcionesDe code, t.addedNoQty.contains code⟩

/-- The numbers offered between what a line has and what is asked. -/
def entre (n actual : ℤ) : List ℤ := sortedSet [n, actual, n + actual]

/-- One more request for the code. -/
def Vista.pide (v : Vista) (q : Option ℤ) : Vista :=
  match v.qty with
  | none => ⟨some (q.getD 1), v.opciones, v.sinNumero || q.isNone⟩
  | some actual =>
    match q with
    | none => v
    | some n => if n = actual then v else { v with opciones := [entre n actual] }

def Op.esAdd : Op → Bool
  | .add .. => true
  | _ => false

/-- The requests for a code, in the order of the message. -/
def pedidasDe (code : Texto) (ops : List Op) : List (Option ℤ) :=
  ops.filterMap fun
    | .add c _ _ qty _ => if c = code then some qty else none
    | _ => none

/-! ## Pass 1 -/

theorem filterMap_quitaConflictos_conflicto (code : Texto) (items : List Item) :
    (quitaConflictos code items).filterMap Item.conflicto? =
      (items.filterMap Item.conflicto?).filter fun c => c.code ≠ code := by
  rw [quitaConflictos, List.filterMap_filter, List.filter_filterMap]
  congr 1
  funext i
  cases i with
  | conflicto c =>
    by_cases hc : c.code = code <;> simp [Item.conflictoDe, Item.conflicto?, Option.filter, hc]
  | producto p => rfl
  | revisar texto qty => rfl
  | siNo v => rfl

/-- A conflict that is asked again replaces the ones of its code. -/
theorem opcionesDe_reabre (e : Estado) (c : Conflicto) (code : Texto) :
    ({ e with openItems := quitaConflictos c.code e.openItems ++ [.conflicto c] } : Estado).opcionesDe
      code = if c.code = code then [c.opcionesQty] else e.opcionesDe code := by
  have hlist : (quitaConflictos c.code e.openItems ++ [Item.conflicto c]).filterMap Item.conflicto? =
      (e.conflictos.filter fun k => k.code ≠ c.code) ++ [c] := by
    rw [List.filterMap_append, filterMap_quitaConflictos_conflicto]
    rfl
  rw [Estado.opcionesDe, Estado.conflictos, hlist, List.filter_append, List.filter_filter]
  by_cases hc : c.code = code
  · have hnone : (e.conflictos.filter fun k => decide (k.code = code) && decide (k.code ≠ c.code)) = [] :=
      List.filter_eq_nil_iff.mpr fun k _ => by simp [hc]
    rw [hnone, if_pos hc]
    simp [hc]
  · have hsame : (e.conflictos.filter fun k => decide (k.code = code) && decide (k.code ≠ c.code)) =
        e.conflictos.filter fun k => k.code = code := by
      refine List.filter_congr fun k _ => ?_
      by_cases hk : k.code = code
      · simp [hk, Ne.symm hc]
      · simp [hk]
    rw [hsame, if_neg hc]
    simp [hc, Estado.opcionesDe]

theorem vista_add (t : Trabajo) (c name brand : Texto) (qty : Option ℤ) (fuente aliasTexto : Texto) :
    (t.add c name brand qty fuente aliasTexto).vista code =
      if c = code then (t.vista code).pide qty else t.vista code := by
  rcases t.add_cases c name brand qty fuente aliasTexto with
    ⟨ln, hln, hq, h⟩ | ⟨ln, q, hln, rfl, hq, h⟩ | ⟨hln, h⟩
  · rw [h]
    by_cases hc : c = code
    · subst hc
      rcases hq with rfl | rfl <;> simp [Trabajo.vista, Trabajo.addIgual, Vista.pide, hln]
    · rw [if_neg hc]
      rfl
  · have hopc : (t.addConflicto c name (some q) ln q).e.opcionesDe code =
        if c = code then [entre q ln.qty] else t.e.opcionesDe code :=
      opcionesDe_reabre t.e ⟨c, _, _⟩ code
    rw [h, Trabajo.vista, hopc]
    by_cases hc : c = code
    · subst hc
      have hlin : (t.addConflicto c name (some q) ln q).e.linea c = some ln := hln
      rw [if_pos rfl, if_pos rfl, hlin]
      simp [Trabajo.vista, Vista.pide, hln, hq, Trabajo.addConflicto, Trabajo.emit]
    · simp only [if_neg hc]
      rfl
  · have hlin : (t.addNueva c name brand qty fuente aliasTexto).e.linea code =
        if c = code then some ⟨c, qty.getD 1, name, fuente, brand⟩ else t.e.linea code := by
      rw [Estado.linea, Trabajo.addNueva, Trabajo.emit, List.find?_append]
      by_cases hc : c = code
      · subst hc
        have hnone : (t.e.cart.find? fun l => l.code = c) = none := hln
        simp [hnone]
      · simp [hc, Estado.linea]
    rw [h, Trabajo.vista, hlin]
    by_cases hc : c = code
    · subst hc
      cases qty <;> simp [Trabajo.vista, Vista.pide, hln, Trabajo.addNueva, Trabajo.emit, Estado.opcionesDe,
        Estado.conflictos]
    · cases qty <;> simp [Trabajo.vista, hc, Ne.symm hc, Trabajo.addNueva, Trabajo.emit,
        Estado.opcionesDe, Estado.conflictos]

theorem vista_paso (t : Trabajo) {op : Op} (hop : op.esAdd) :
    (paso false t op).vista code = (pedidasDe code [op]).foldl Vista.pide (t.vista code) := by
  cases op with
  | add c name brand qty fuente =>
    have hpide : pedidasDe code [.add c name brand qty fuente] =
        if c = code then [qty] else [] := by
      by_cases hc : c = code <;> simp [pedidasDe, hc]
    simp only [paso, Bool.false_eq_true, if_false]
    rw [vista_add, hpide]
    split <;> rfl
  | _ => cases hop

/-- What pass 1 leaves of a code is read off the requests for it. -/
theorem vista_tras (hops : ∀ op ∈ ops, op.esAdd) : (tras false e g ops).vista code =
    (pedidasDe code ops).foldl Vista.pide ((inicio e g).vista code) := by
  induction ops using List.reverseRecOn with
  | nil => rfl
  | append_singleton ops op ih =>
    have hinit : ∀ o ∈ ops, o.esAdd := fun o ho => hops o (List.mem_append_left _ ho)
    have hop : op.esAdd := hops op (List.mem_append_right _ List.mem_cons_self)
    have hpedidas : pedidasDe code (ops ++ [op]) = pedidasDe code ops ++ pedidasDe code [op] :=
      List.filterMap_append
    rw [tras_concat, vista_paso _ hop, ih hinit, hpedidas, List.foldl_append]

theorem pedida_adds (hops : ∀ op ∈ ops, op.esAdd) (q : Option ℤ) :
    Pedida false e g ops code q ↔ q ∈ pedidasDe code ops := by
  have hone (s : Estado) {op : Op} (hop : op.esAdd) :
      (code, q) ∈ op.pedidas false s ↔ q ∈ pedidasDe code [op] := by
    cases op with
    | add c name brand qty fuente =>
      by_cases hc : c = code
      · simp [Op.pedidas, pedidasDe, hc]
      · simp [Op.pedidas, pedidasDe, hc, Ne.symm hc]
    | _ => cases hop
  constructor
  · rintro ⟨xs, op, ys, rfl, hq⟩
    have hmem : op ∈ xs ++ op :: ys := List.mem_append_right _ List.mem_cons_self
    obtain ⟨o, ho, hqo⟩ := List.mem_filterMap.mp ((hone _ (hops op hmem)).mp hq)
    obtain rfl := List.mem_singleton.mp ho
    exact List.mem_filterMap.mpr ⟨o, hmem, hqo⟩
  · intro hq
    obtain ⟨op, hop, hqop⟩ := List.mem_filterMap.mp hq
    obtain ⟨xs, ys, rfl⟩ := List.append_of_mem hop
    refine ⟨xs, op, ys, rfl, (hone _ (hops op hop)).mpr ?_⟩
    exact List.mem_filterMap.mpr ⟨op, List.mem_cons_self, hqop⟩

/-! ## Pass 2 -/

theorem vista_regla3Una (t : Trabajo) (r : Texto × List (Option ℤ)) : (regla3Una t r).vista code =
    if 1 < (distintas r.2).length ∧ r.1 = code then
      { t.vista code with
        qty := none
        opciones := [sortedSet (distintas r.2 ++ [(distintas r.2).sum])] }
    else t.vista code := by
  by_cases hd : 1 < (distintas r.2).length
  · have hcart : (regla3Una t r).e.linea code = if r.1 = code then none else t.e.linea code := by
      rw [Estado.linea, regla3Una_cart, if_pos hd]
      simp only [eq_comm (a := r.1)]
      exact find?_filter_code
    have hopc : (regla3Una t r).e.opcionesDe code = if r.1 = code then
        [sortedSet (distintas r.2 ++ [(distintas r.2).sum])] else t.e.opcionesDe code := by
      unfold regla3Una
      dsimp only
      rw [if_pos hd]
      exact opcionesDe_reabre _ ⟨r.1, _, _⟩ code
    have hadded : (regla3Una t r).addedNoQty = t.addedNoQty := by
      unfold regla3Una
      dsimp only
      split <;> rfl
    rw [Trabajo.vista, hcart, hopc, hadded]
    by_cases hc : r.1 = code <;> simp [hd, hc, Trabajo.vista]
  · have hsame : regla3Una t r = t := if_neg hd
    rw [hsame, if_neg fun h => hd h.1]

/-- Rule 3 on a code: the numbers of its one entry decide. -/
theorem vista_regla3 (hnd : (t.seenAdds.map Prod.fst).Nodup) : (regla3 t).vista code =
    if 1 < (distintas ((t.seenAdds.lookup code).getD [])).length then
      { t.vista code with
        qty := none
        opciones := [sortedSet (distintas ((t.seenAdds.lookup code).getD []) ++
          [(distintas ((t.seenAdds.lookup code).getD [])).sum])] }
    else t.vista code := by
  rw [regla3]
  generalize t.seenAdds = rs at hnd ⊢
  induction rs generalizing t with
  | nil => rfl
  | cons r rs ih =>
    obtain ⟨c, qs⟩ := r
    rw [List.map_cons, List.nodup_cons] at hnd
    rw [List.foldl_cons, ih hnd.2, vista_regla3Una]
    by_cases hc : c = code
    · subst hc
      have hnone : rs.lookup c = none := List.lookup_eq_none_iff.mpr fun p hp => by
        have hne : c ≠ p.1 := fun h => hnd.1 (List.mem_map.mpr ⟨p, hp, h.symm⟩)
        simpa using hne
      simp [hnone, distintas, sortedSet]
    · have hlook : ((c, qs) :: rs).lookup code = rs.lookup code := by
        simp [List.lookup_cons, beq_false_of_ne (Ne.symm hc)]
      have hother : ¬ (1 < (distintas qs).length ∧ c = code) := fun h => hc h.2
      simp only [hlook, if_neg hother]

theorem regla11Lineas_linea (n : ℤ) (codes : List Texto) (t : Trabajo) (c : Texto) :
    (codes.foldl (regla11Linea n) t).e.linea c =
      if c ∈ codes then (t.e.linea c).map fun l => { l with qty := n } else t.e.linea c := by
  induction codes generalizing t with
  | nil => rfl
  | cons d codes ih =>
    rw [List.foldl_cons, ih, regla11Linea_linea]
    by_cases hd : c = d
    · cases t.e.linea c <;> simp [hd]
    · simp [hd]

theorem conflictos_regla11 (t : Trabajo) : (regla11 t).e.conflictos = t.e.conflictos := by
  rw [Estado.conflictos, regla11_openItems]
  cases t.cantidadGlobal with
  | none => rfl
  | some n =>
    refine filterMap_map_of_eq (fun i => ?_) t.e.openItems
    cases i <;> rfl

theorem conflictos_limpia (t : Trabajo) : (limpia (regla7 t)).e.conflictos = t.e.conflictos := by
  have hagotados (items : List Item) :
      (agotados items).filterMap Item.conflicto? = items.filterMap Item.conflicto? := by
    refine foldl_keeps (P := fun is : List Item =>
      is.filterMap Item.conflicto? = items.filterMap Item.conflicto?) _ (fun is p _ his => ?_) rfl
    rw [List.filterMap_append, filterMap_erase_of_none (f := Item.conflicto?) rfl, his]
    exact List.append_nil _
  have hmarcas (items : List Item) :
      (items.map Item.sinMarca).filterMap Item.conflicto? = items.filterMap Item.conflicto? :=
    filterMap_map_of_eq (fun i => by cases i <;> rfl) items
  have hcontado (hubo : Bool) (items : List Item) :
      (items.map (Item.contado hubo)).filterMap Item.conflicto? = items.filterMap Item.conflicto? :=
    filterMap_map_of_eq (fun i => by cases i <;> rfl) items
  calc (limpia (regla7 t)).e.conflictos
      = ((agotados (regla7 t).e.openItems).map Item.sinMarca).filterMap Item.conflicto? := rfl
    _ = (regla7 t).e.openItems.filterMap Item.conflicto? := (hmarcas _).trans (hagotados _)
    _ = t.e.conflictos := by rw [regla7, regla7Items_fst, hcontado, Estado.conflictos]

theorem qty_regla11 (t : Trabajo) : ((regla11 t).e.linea code).map Linea.qty =
    ((t.e.linea code).map Linea.qty).map fun q =>
      if t.addedNoQty.contains code then t.cantidadGlobal.getD q else q := by
  unfold regla11
  cases t.cantidadGlobal with
  | none => cases t.e.linea code <;> simp
  | some n =>
    have hlin := regla11Lineas_linea n t.addedNoQty t code
    dsimp only [Trabajo.conEstado]
    rw [Estado.linea] at hlin ⊢
    rw [hlin]
    by_cases hc : code ∈ t.addedNoQty
    · cases t.e.linea code <;> simp [hc]
    · cases t.e.linea code <;> simp [hc]

theorem vista_reglaMedia (t : Trabajo) : (reglaMedia t).vista code = t.vista code := by
  have hconf : (reglaMedia t).e.conflictos = t.e.conflictos := by
    rw [Estado.conflictos, Estado.conflictos]
    rcases reglaMedia_openItems t with h | ⟨v, h⟩ <;> rw [h]
    exact filterMap_append_of_none rfl _
  rw [Trabajo.vista, Estado.linea, Estado.opcionesDe, reglaMedia_cart, hconf, (reglaMedia_frame t).2.1]
  rfl

/-- What pass 2 leaves of a code, given what pass 1 left. -/
theorem vista_pase2 (t : Trabajo) (hnd : (t.seenAdds.map Prod.fst).Nodup) :
    let ds := distintas ((t.seenAdds.lookup code).getD [])
    let v := t.vista code
    ((pase2 t).e.linea code).map Linea.qty =
        (if 1 < ds.length then none
          else v.qty.map fun q => if v.sinNumero then t.cantidadGlobal.getD q else q) ∧
      (pase2 t).e.opcionesDe code = if 1 < ds.length then [sortedSet (ds ++ [ds.sum])] else v.opciones := by
  intro ds v
  obtain ⟨hseen, hadded, hglobal⟩ := reglaMedia_frame t
  have hsin : (regla3 (reglaMedia t)).addedNoQty.contains code = v.sinNumero := by
    rw [regla3_addedNoQty, hadded]
    rfl
  have h3 : (regla3 (reglaMedia t)).vista code = if 1 < ds.length then
      { v with qty := none, opciones := [sortedSet (ds ++ [ds.sum])] } else v := by
    rw [vista_regla3 (hseen ▸ hnd), hseen, vista_reglaMedia]
  have hqty : ((pase2 t).e.linea code).map Linea.qty =
      ((regla11 (regla3 (reglaMedia t))).e.linea code).map Linea.qty := rfl
  have hopc : (pase2 t).e.opcionesDe code = (regla3 (reglaMedia t)).e.opcionesDe code := by
    rw [Estado.opcionesDe, Estado.opcionesDe, pase2, conflictos_limpia, conflictos_regla11]
  have hq3 := congrArg Vista.qty h3
  have ho3 := congrArg Vista.opciones h3
  rw [hqty, qty_regla11, hsin, regla3_cantidadGlobal, hglobal, hopc]
  by_cases hd : 1 < ds.length
  · simp only [if_pos hd] at hq3 ho3 ⊢
    exact ⟨congrArg (Option.map _) hq3, ho3⟩
  · simp only [if_neg hd] at hq3 ho3 ⊢
    exact ⟨congrArg (Option.map _) hq3, ho3⟩

theorem distintas_congr {qs qs' : List (Option ℤ)} (h : ∀ n, some n ∈ qs ↔ some n ∈ qs') :
    distintas qs = distintas qs' := by
  have hmem (n : ℤ) : n ∈ (qs.filterMap id).dedup ↔ n ∈ (qs'.filterMap id).dedup := by
    simpa using h n
  have hperm : (qs.filterMap id).dedup.Perm (qs'.filterMap id).dedup :=
    (List.perm_ext_iff_of_nodup (List.nodup_dedup _) (List.nodup_dedup _)).mpr hmem
  have hsort (xs : List ℤ) : (xs.insertionSort (· ≤ ·)).Pairwise (· ≤ ·) :=
    List.pairwise_insertionSort (· ≤ ·) xs
  refine List.Perm.eq_of_pairwise' (hsort _) (hsort _) ?_
  exact (List.perm_insertionSort _ _).trans (hperm.trans (List.perm_insertionSort _ _).symm)

theorem cantidadGlobal_tras (hops : ∀ op ∈ ops, op.esAdd) : (tras false e g ops).cantidadGlobal = g := by
  refine foldl_keeps (P := fun u : Trabajo => u.cantidadGlobal = g) ops (fun u op hop hu => ?_) rfl
  cases op with
  | add c name brand qty fuente =>
    simp only [paso, Bool.false_eq_true, if_false]
    rcases u.add_cases c name brand qty fuente [] with ⟨ln, -, -, h⟩ | ⟨ln, q, -, -, -, h⟩ | ⟨-, h⟩
    all_goals
      rw [h]
      exact hu
  | _ => cases hops _ hop

theorem lookup_of_mem {rs : List (Texto × List (Option ℤ))} (hnd : (rs.map Prod.fst).Nodup)
    {qs : List (Option ℤ)} (h : (code, qs) ∈ rs) : rs.lookup code = some qs := by
  induction rs with
  | nil => cases h
  | cons r rs ih =>
    rw [List.map_cons, List.nodup_cons] at hnd
    rcases List.mem_cons.mp h with rfl | h
    · exact List.lookup_cons_self
    · have hne : code ≠ r.1 := fun hc => hnd.1 (hc ▸ List.mem_map_of_mem (f := Prod.fst) h)
      rw [List.lookup_cons, beq_false_of_ne hne]
      exact ih hnd.2 h

theorem apuntada_iff {rs : List (Texto × List (Option ℤ))} (hnd : (rs.map Prod.fst).Nodup)
    (q : Option ℤ) : q ∈ (rs.lookup code).getD [] ↔ Apuntada rs code q := by
  constructor
  · intro h
    cases hl : rs.lookup code with
    | none => simp [hl] at h
    | some qs =>
      rw [hl] at h
      obtain ⟨xs, ys, rfl, -⟩ := List.lookup_eq_some_iff.mp hl
      exact ⟨qs, by simp, h⟩
  · rintro ⟨qs, hqs, hq⟩
    rw [lookup_of_mem hnd hqs]
    exact hq

/-! ## What a turn leaves of a code -/

/-- The quantity and the pending numbers of a code after the requests `qs` for it. -/
def deja (e : Estado) (g : Option ℤ) (code : Texto) (qs : List (Option ℤ)) :
    Option ℤ × List (List ℤ) :=
  let ds := distintas qs
  let v := qs.foldl Vista.pide ((inicio e g).vista code)
  if 1 < ds.length then (none, [sortedSet (ds ++ [ds.sum])])
  else (v.qty.map fun q => if v.sinNumero then g.getD q else q, v.opciones)

theorem aplicar_adds (hops : ∀ op ∈ ops, op.esAdd) :
    (((aplicar e ops false g).estado.linea code).map Linea.qty,
      (aplicar e ops false g).estado.opcionesDe code) = deja e g code (pedidasDe code ops) := by
  obtain ⟨hnd, hseen⟩ := tras_seenAdds false e g ops
  have hds : distintas (((tras false e g ops).seenAdds.lookup code).getD []) =
      distintas (pedidasDe code ops) := by
    refine distintas_congr fun n => ?_
    rw [apuntada_iff hnd, hseen, pedida_adds hops]
  obtain ⟨hqty, hopc⟩ := @vista_pase2 code (tras false e g ops) hnd
  rw [hds, vista_tras hops, cantidadGlobal_tras hops] at hqty
  rw [hds, vista_tras hops] at hopc
  rw [aplicar_estado, hqty, hopc, deja]
  split <;> rfl

/-- The requests of a photo write no line and open no conflict. -/
theorem aplicar_adds_media (hops : ∀ op ∈ ops, op.esAdd) :
    ((aplicar e ops true g).estado.linea code).map Linea.qty = (e.linea code).map Linea.qty ∧
      (aplicar e ops true g).estado.opcionesDe code = e.opcionesDe code := by
  have htras : (tras true e g ops).e = e ∧ (tras true e g ops).seenAdds = [] ∧
      (tras true e g ops).addedNoQty = [] := by
    refine foldl_keeps (P := fun u : Trabajo => u.e = e ∧ u.seenAdds = [] ∧ u.addedNoQty = []) ops
      (fun u op hop hu => ?_) ⟨rfl, rfl, rfl⟩
    cases op with
    | add c name brand qty fuente => exact hu
    | _ => cases hops _ hop
  obtain ⟨he, hseen, hadded⟩ := htras
  have hnd : ((tras true e g ops).seenAdds.map Prod.fst).Nodup := by
    rw [hseen]
    exact List.nodup_nil
  obtain ⟨hqty, hopc⟩ := @vista_pase2 code (tras true e g ops) hnd
  have hnone : ¬ 1 < (distintas (((tras true e g ops).seenAdds.lookup code).getD [])).length := by
    rw [hseen]
    exact Nat.not_lt_zero 1
  rw [if_neg hnone] at hqty hopc
  rw [aplicar_estado, hqty, hopc]
  cases hl : e.linea code <;> simp [Trabajo.vista, hadded, he, hl]

/-! ## The order of the requests -/

section Orders

variable {v : Vista} {q actual : ℤ} {qs : List (Option ℤ)}

/-- Requests for a code that has its line, all with one number. -/
theorem foldl_pide (hv : v.qty = some actual) (hq : ∀ n, some n ∈ qs → n = q) :
    qs.foldl Vista.pide v =
      { v with opciones := if some q ∈ qs ∧ q ≠ actual then [entre q actual] else v.opciones } := by
  induction qs generalizing v with
  | nil => simp
  | cons r qs ih =>
    have htail : ∀ n, some n ∈ qs → n = q := fun n hn => hq n (List.mem_cons_of_mem _ hn)
    cases r with
    | none =>
      have hstep : v.pide none = v := by simp [Vista.pide, hv]
      rw [List.foldl_cons, hstep, ih hv htail]
      simp
    | some n =>
      obtain rfl := hq n List.mem_cons_self
      rw [List.foldl_cons]
      by_cases hn : n = actual
      · have hstep : v.pide (some n) = v := by simp [Vista.pide, hv, hn]
        rw [hstep, ih hv htail]
        simp [hn]
      · have hstep : v.pide (some n) = { v with opciones := [entre n actual] } := by
          simp [Vista.pide, hv, hn]
        rw [hstep, ih (v := { v with opciones := [entre n actual] }) hv htail]
        simp [hn]

theorem not_one_lt_distintas (hq : ∀ n, some n ∈ qs → n = q) : ¬ 1 < (distintas qs).length := by
  intro h
  obtain ⟨a, b, hab, ha, hb⟩ := one_lt_distintas.mp h
  exact hab ((hq a ha).trans (hq b hb).symm)

theorem deja_of_linea {l : Linea} (hl : e.linea code = some l) (hq : ∀ n, some n ∈ qs → n = q) :
    deja e g code qs = (some l.qty,
      if some q ∈ qs ∧ q ≠ l.qty then [entre q l.qty] else e.opcionesDe code) := by
  have hv : ((inicio e g).vista code).qty = some l.qty := congrArg (Option.map Linea.qty) hl
  rw [deja, if_neg (not_one_lt_distintas hq), foldl_pide hv hq, hv]
  simp [Trabajo.vista, inicio]

/-- The first request for a code without a line has no number: the line gets the default. -/
theorem deja_none_cons (hl : e.linea code = none) (hq : ∀ n, some n ∈ qs → n = q) :
    deja e g code (none :: qs) = (some (g.getD 1),
      if some q ∈ qs ∧ q ≠ 1 then [entre q 1] else e.opcionesDe code) := by
  have hq' : ∀ n, some n ∈ none :: qs → n = q := fun n hn => hq n (by simpa using hn)
  have hv : ((inicio e g).vista code).pide none = ⟨some 1, e.opcionesDe code, true⟩ := by
    have hnone : ((inicio e g).vista code).qty = none := congrArg (Option.map Linea.qty) hl
    simp [Vista.pide, hnone]
    rfl
  rw [deja, if_neg (not_one_lt_distintas hq'), List.foldl_cons, hv, foldl_pide rfl hq]
  simp

/-- The first request for a code without a line has a number: the line gets it. -/
theorem deja_some_cons (hl : e.linea code = none) (hq : ∀ n, some n ∈ some q :: qs → n = q) :
    deja e g code (some q :: qs) = (some q, e.opcionesDe code) := by
  have htail : ∀ n, some n ∈ qs → n = q := fun n hn => hq n (List.mem_cons_of_mem _ hn)
  have hv : ((inicio e g).vista code).pide (some q) = ⟨some q, e.opcionesDe code, false⟩ := by
    have hnone : ((inicio e g).vista code).qty = none := congrArg (Option.map Linea.qty) hl
    simp [Vista.pide, hnone]
    exact ⟨rfl, rfl⟩
  rw [deja, if_neg (not_one_lt_distintas hq), List.foldl_cons, hv, foldl_pide rfl htail]
  simp

end Orders

/-- The two outcomes are the same order: one quantity, one set of pending numbers. -/
def MismaVista (x y : Option ℤ × List (List ℤ)) : Prop := x.1 = y.1 ∧ ∀ o, o ∈ x.2 ↔ o ∈ y.2

/-- The code has no line, and the message asks for it without a number and else with the number `q`
alone, which is not what a line without a number ends with. -/
def Titubea (e : Estado) (g : Option ℤ) (code : Texto) (qs : List (Option ℤ)) : Prop :=
  e.linea code = none ∧ none ∈ qs ∧ ∃ q, some q ∈ qs ∧ (∀ n, some n ∈ qs → n = q) ∧
    ¬ (g.getD 1 = q ∧ (q = 1 ∨ ∀ o, o ∈ e.opcionesDe code ↔ o = entre q 1))

/-- Both first requests lead to the same order in one case. -/
theorem mismaVista_iff {q : ℤ} {qs qs' : List (Option ℤ)} (hl : e.linea code = none)
    (hq : ∀ n, some n ∈ qs → n = q) (hmem : some q ∈ qs) (hq' : ∀ n, some n ∈ some q :: qs' → n = q) :
    MismaVista (deja e g code (none :: qs)) (deja e g code (some q :: qs')) ↔
      g.getD 1 = q ∧ (q = 1 ∨ ∀ o, o ∈ e.opcionesDe code ↔ o = entre q 1) := by
  rw [deja_none_cons hl hq, deja_some_cons hl hq', MismaVista]
  by_cases h1 : q = 1
  · simp [h1]
  · simp [hmem, h1, iff_comm]

/-- The requests for a code in another order leave the same, unless the code wavers. -/
theorem deja_perm {qs qs' : List (Option ℤ)} (hp : qs.Perm qs') (ht : ¬ Titubea e g code qs) :
    MismaVista (deja e g code qs) (deja e g code qs') := by
  have hrefl {x y : Option ℤ × List (List ℤ)} (h : x = y) : MismaVista x y :=
    h ▸ ⟨rfl, fun _ => Iff.rfl⟩
  have hds : distintas qs = distintas qs' := distintas_congr fun n => hp.mem_iff
  by_cases hd : 1 < (distintas qs).length
  · apply hrefl
    rw [deja, deja, if_pos hd, if_pos (hds ▸ hd), hds]
  · have hone : ∃ q, ∀ n, some n ∈ qs → n = q := by
      by_cases hq : ∃ q, some q ∈ qs
      · obtain ⟨q, hq⟩ := hq
        refine ⟨q, fun n hn => ?_⟩
        by_contra hne
        exact hd (one_lt_distintas.mpr ⟨n, q, hne, hn, hq⟩)
      · exact ⟨0, fun n hn => absurd ⟨n, hn⟩ hq⟩
    obtain ⟨q, hq⟩ := hone
    have hq' : ∀ n, some n ∈ qs' → n = q := fun n hn => hq n (hp.mem_iff.mpr hn)
    cases hl : e.linea code with
    | some l =>
      apply hrefl
      simp only [deja_of_linea hl hq, deja_of_linea hl hq', hp.mem_iff]
    | none =>
      cases qs with
      | nil =>
        obtain rfl := hp.nil_eq
        exact hrefl rfl
      | cons r qs =>
        cases qs' with
        | nil => exact absurd hp.length_eq (by simp)
        | cons r' qs' =>
          have htail : ∀ n, some n ∈ qs → n = q := fun n hn => hq n (List.mem_cons_of_mem _ hn)
          have htail' : ∀ n, some n ∈ qs' → n = q := fun n hn => hq' n (List.mem_cons_of_mem _ hn)
          cases r with
          | none =>
            cases r' with
            | none =>
              apply hrefl
              have htails : qs.Perm qs' := (List.perm_cons none).mp hp
              simp only [deja_none_cons hl htail, deja_none_cons hl htail', htails.mem_iff]
            | some n =>
              obtain rfl := hq' n List.mem_cons_self
              have hmem : some n ∈ qs := by simpa using hp.mem_iff.mpr List.mem_cons_self
              refine (mismaVista_iff hl htail hmem hq').mpr ?_
              by_contra hno
              exact ht ⟨hl, List.mem_cons_self, n, List.mem_cons_of_mem _ hmem, hq, hno⟩
          | some n =>
            obtain rfl := hq n List.mem_cons_self
            cases r' with
            | none =>
              have hmem : some n ∈ qs' := by simpa using hp.mem_iff.mp List.mem_cons_self
              have hsame : MismaVista (deja e g code (none :: qs')) (deja e g code (some n :: qs)) := by
                refine (mismaVista_iff hl htail' hmem hq).mpr ?_
                by_contra hno
                exact ht ⟨hl, hp.mem_iff.mpr List.mem_cons_self, n, List.mem_cons_self, hq, hno⟩
              exact ⟨hsame.1.symm, fun o => (hsame.2 o).symm⟩
            | some n' =>
              obtain rfl := hq' n' List.mem_cons_self
              exact hrefl (by rw [deja_some_cons hl hq, deja_some_cons hl hq'])

/-! ## Whole messages -/

/-- The same order: every code with the same quantity and the same pending numbers. -/
def MismoPedido (r r' : Estado) : Prop :=
  (∀ code, (r.linea code).map Linea.qty = (r'.linea code).map Linea.qty) ∧
    ∀ code opciones, (∃ c ∈ r.conflictos, c.code = code ∧ c.opcionesQty = opciones) ↔
      ∃ c ∈ r'.conflictos, c.code = code ∧ c.opcionesQty = opciones

theorem mem_opcionesDe {e : Estado} {o : List ℤ} :
    o ∈ e.opcionesDe code ↔ ∃ c ∈ e.conflictos, c.code = code ∧ c.opcionesQty = o := by
  simp [Estado.opcionesDe, and_assoc]

theorem mismoPedido_iff {r r' : Estado} : MismoPedido r r' ↔ ∀ code,
    MismaVista ((r.linea code).map Linea.qty, r.opcionesDe code)
      ((r'.linea code).map Linea.qty, r'.opcionesDe code) := by
  simp only [MismoPedido, MismaVista, mem_opcionesDe]
  exact forall_and.symm

/-- Some order of the message starts with a given request for a code. -/
theorem exists_perm_cons {q : Option ℤ} (hq : q ∈ pedidasDe code ops) : ∃ ops' qs,
    ops.Perm ops' ∧ pedidasDe code ops' = q :: qs ∧ (pedidasDe code ops).Perm (q :: qs) := by
  obtain ⟨op, hop, hqop⟩ := List.mem_filterMap.mp hq
  obtain ⟨xs, ys, rfl⟩ := List.append_of_mem hop
  have hperm : (xs ++ op :: ys).Perm (op :: (xs ++ ys)) := List.perm_middle
  have hcons : pedidasDe code (op :: (xs ++ ys)) = q :: pedidasDe code (xs ++ ys) :=
    List.filterMap_cons_some hqop
  exact ⟨_, _, hperm, hcons, hcons ▸ hperm.filterMap _⟩

/-- The requests of a message commute exactly when no code wavers: when none without a line is asked
both without a number and with a single number, other than the one it then ends with. -/
theorem adds_commute_iff (hops : ∀ op ∈ ops, op.esAdd) :
    (∀ ops', ops.Perm ops' →
        MismoPedido (aplicar e ops fm g).estado (aplicar e ops' fm g).estado) ↔
      fm = true ∨ ∀ code, ¬ Titubea e g code (pedidasDe code ops) := by
  have hperm {ops' : List Op} (hp : ops.Perm ops') : ∀ op ∈ ops', op.esAdd :=
    fun op hop => hops op (hp.mem_iff.mpr hop)
  cases fm with
  | true =>
    refine iff_of_true (fun ops' hp => mismoPedido_iff.mpr fun code => ?_) (Or.inl rfl)
    obtain ⟨hqty, hopc⟩ := @aplicar_adds_media e g _ code hops
    obtain ⟨hqty', hopc'⟩ := @aplicar_adds_media e g _ code (hperm hp)
    rw [hqty, hopc, hqty', hopc']
    exact ⟨rfl, fun _ => Iff.rfl⟩
  | false =>
    rw [or_iff_right Bool.false_ne_true]
    constructor
    · rintro h code ⟨hl, hnone, q, hq, hall, hno⟩
      obtain ⟨ops₁, qs₁, hp₁, hpedidas₁, hqs₁⟩ := exists_perm_cons hnone
      obtain ⟨ops₂, qs₂, hp₂, hpedidas₂, hqs₂⟩ := exists_perm_cons hq
      have h₁ := mismoPedido_iff.mp (h ops₁ hp₁) code
      have h₂ := mismoPedido_iff.mp (h ops₂ hp₂) code
      rw [aplicar_adds hops, aplicar_adds (hperm hp₁), hpedidas₁] at h₁
      rw [aplicar_adds hops, aplicar_adds (hperm hp₂), hpedidas₂] at h₂
      refine hno ((@mismaVista_iff _ _ _ _ qs₁ qs₂ hl ?_ ?_ ?_).mp
        ⟨h₁.1.symm.trans h₂.1, fun o => (h₁.2 o).symm.trans (h₂.2 o)⟩)
      · exact fun n hn => hall n (hqs₁.mem_iff.mpr (List.mem_cons_of_mem _ hn))
      · simpa using hqs₁.mem_iff.mp hq
      · exact fun n hn => hall n (hqs₂.mem_iff.mpr hn)
    · intro h ops' hp
      refine mismoPedido_iff.mpr fun code => ?_
      rw [aplicar_adds hops, aplicar_adds (hperm hp)]
      exact deja_perm (hp.filterMap _) (h code)

/-- "Kajal" and "6 serum": each code is asked once. -/
theorem two_codes_commute :
    MismoPedido
      (aplicar {} [.add "KJ401" "KAJAL NEGRO" [] none "pedidos",
        .add "SN200" "SERUM NOCHE" [] (some 6) "pedidos"] false none).estado
      (aplicar {} [.add "SN200" "SERUM NOCHE" [] (some 6) "pedidos",
        .add "KJ401" "KAJAL NEGRO" [] none "pedidos"] false none).estado := by
  refine (adds_commute_iff (by simp [Op.esAdd])).mpr (Or.inr ?_) _ (List.Perm.swap _ _ _)
  rintro code ⟨-, hnone, q, hq, -⟩
  obtain ⟨o, ho, hko⟩ := List.mem_filterMap.mp hnone
  obtain ⟨o', ho', hko'⟩ := List.mem_filterMap.mp hq
  rcases List.mem_pair.mp ho with rfl | rfl
  · rcases List.mem_pair.mp ho' with rfl | rfl
    · simp at hko'
    · have hk : "KJ401" = code := by simpa using hko
      have hs : "SN200" = code ∧ 6 = q := by simpa using hko'
      exact absurd (hk.trans hs.1.symm) (by decide)
  · simp at hko

/-- "Kajal" and "6 kajal" in one message: one order keeps six, the other asks about a one nobody
said. -/
theorem kajal_twice_wavers :
    ¬ ∀ ops', [Op.add "KJ401" "KAJAL NEGRO" [] none "pedidos",
        .add "KJ401" "KAJAL NEGRO" [] (some 6) "pedidos"].Perm ops' →
      MismoPedido
        (aplicar {} [.add "KJ401" "KAJAL NEGRO" [] none "pedidos",
          .add "KJ401" "KAJAL NEGRO" [] (some 6) "pedidos"] false none).estado
        (aplicar {} ops' false none).estado := by
  intro h
  have hswap := (h _ (List.Perm.swap _ _ _)).1 "KJ401"
  revert hswap
  decide

end Chatlink.Agent
