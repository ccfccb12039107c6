import Chatlink.Agent.OpenItems

/-!
# What a turn asks and what it settles

An open product, a quantity conflict and a yes/no proposal are doubts, and a question of the reply
is about one. Every operation adds some questions to the facts, and opens and closes some doubts:
those it asks about are open afterwards, and nothing else opens. The question whether to remove a
line or to take a number from it has no doubt of its own.
-/
namespace Chatlink.Agent

open Lists

/-- What a question can be about. -/
inductive Duda where
  | producto (texto : Texto)
  | conflicto (code : Texto)
  | propuesta (tipo : TipoSiNo)
  | baja (code : Texto)
  | restar (code : Texto)
  deriving DecidableEq, Repr

/-- The question that a proposal waits for. -/
def Propuesta.duda (v : Propuesta) : Duda := if v.tipo = .baja then .baja v.code else .propuesta v.tipo

/-- The doubt that an open item is. -/
def Item.duda? : Item → Option Duda
  | .producto p => some (.producto p.texto)
  | .conflicto c => some (.conflicto c.code)
  | .siNo v => some v.duda
  | .revisar .. => none

/-- The doubt that a fact asks about. -/
def Hecho.duda? : Hecho → Option Duda
  | .preguntaOpciones texto _ _ _ => some (.producto texto)
  | .sinCandidatos texto => some (.producto texto)
  | .rechazoRegistrado texto => some (.producto texto)
  | .recordatorioPendiente texto => some (.producto texto)
  | .conflictoCantidad code _ _ => some (.conflicto code)
  | .propuesta tipo _ _ => some (.propuesta tipo)
  | .preguntaBaja code _ => some (.baja code)
  | .preguntaEliminarORestar code _ _ => some (.restar code)
  | _ => none

def dudas (is : List Item) : List Duda := is.filterMap Item.duda?

def planteadas (hs : List Hecho) : List Duda := hs.filterMap Hecho.duda?

/-- The reminder of a pending product, which rule 7 alone emits. -/
def Hecho.recuerda : Hecho → Bool
  | .recordatorioPendiente _ => true
  | _ => false

/-- Every question about a quantity has the options of the open conflict. -/
def Propias (is : List Item) (hs : List Hecho) : Prop :=
  ∀ c, Item.conflicto c ∈ is → ∀ name ops, Hecho.conflictoCantidad c.code name ops ∈ hs →
    ops = c.opcionesQty

theorem planteadas_append (hs l : List Hecho) :
    planteadas (hs ++ l) = planteadas hs ++ planteadas l := List.filterMap_append

theorem mem_dudas {is : List Item} {d : Duda} : d ∈ dudas is ↔ ∃ i ∈ is, i.duda? = some d :=
  List.mem_filterMap

theorem mem_planteadas {hs : List Hecho} {d : Duda} :
    d ∈ planteadas hs ↔ ∃ h ∈ hs, h.duda? = some d := List.mem_filterMap

theorem Propuesta.duda_ne (v : Propuesta) : (∀ texto, v.duda ≠ .producto texto) ∧
    (∀ code, v.duda ≠ .conflicto code) ∧ ∀ code, v.duda ≠ .restar code := by
  unfold Propuesta.duda
  split
  · simp
  · simp

/-- No open item asks whether to remove or to subtract. -/
theorem restar_notMem_dudas (is : List Item) (code : Texto) : Duda.restar code ∉ dudas is := by
  intro h
  obtain ⟨i, -, hi⟩ := mem_dudas.mp h
  cases i with
  | producto p => cases hi
  | conflicto c => cases hi
  | siNo v => exact v.duda_ne.2.2 code (Option.some.inj hi)
  | revisar texto qty => cases hi

theorem duda_producto {i : Item} {texto : Texto} (h : i.duda? = some (.producto texto)) :
    ∃ p, i = .producto p ∧ p.texto = texto := by
  cases i with
  | producto p => exact ⟨p, rfl, Duda.producto.inj (Option.some.inj h)⟩
  | conflicto c => cases h
  | siNo v => exact absurd (Option.some.inj h) (v.duda_ne.1 texto)
  | revisar t qty => cases h

theorem duda_conflicto {i : Item} {code : Texto} (h : i.duda? = some (.conflicto code)) :
    ∃ c, i = .conflicto c ∧ c.code = code := by
  cases i with
  | producto p => cases h
  | conflicto c => exact ⟨c, rfl, Duda.conflicto.inj (Option.some.inj h)⟩
  | siNo v => exact absurd (Option.some.inj h) (v.duda_ne.2.1 code)
  | revisar t qty => cases h

theorem duda_siNo {i : Item} {v : Propuesta} (h : i.duda? = some v.duda) :
    ∃ w, i = .siNo w ∧ w.duda = v.duda := by
  cases i with
  | producto p => exact absurd (Option.some.inj h).symm (v.duda_ne.1 p.texto)
  | conflicto c => exact absurd (Option.some.inj h).symm (v.duda_ne.2.1 c.code)
  | siNo w => exact ⟨w, rfl, Option.some.inj h⟩
  | revisar t qty => cases h

theorem producto_mem_dudas {is : List Item} {texto : Texto} :
    Duda.producto texto ∈ dudas is ↔ ∃ p, Item.producto p ∈ is ∧ p.texto = texto := by
  rw [mem_dudas]
  constructor
  · rintro ⟨i, hi, hd⟩
    obtain ⟨p, rfl, hp⟩ := duda_producto hd
    exact ⟨p, hi, hp⟩
  · rintro ⟨p, hp, rfl⟩
    exact ⟨_, hp, rfl⟩

/-! ## What a step asks and closes -/

/-- The step adds the questions `A`, whose doubts are open after it, and closes the doubts `B`. -/
structure Anota (A B : List Duda) (t t' : Trabajo) : Prop where
  plantea : planteadas t'.hechos = planteadas t.hechos ++ A
  recuerdos : (∀ h ∈ t.hechos, h.recuerda = false) → ∀ h ∈ t'.hechos, h.recuerda = false
  entra : ∀ d ∈ dudas t'.e.openItems, d ∈ dudas t.e.openItems ∨ d ∈ A
  queda : ∀ d ∈ dudas t.e.openItems, d ∈ dudas t'.e.openItems ∨ d ∈ B
  abre : ∀ d ∈ A, (∀ code, d ≠ .restar code) → d ∈ dudas t'.e.openItems
  sale : Unicos t.e.openItems → t.e.siNos.length ≤ 1 → ∀ d ∈ B, d ∈ dudas t'.e.openItems → d ∈ A
  propias : A.Nodup → (∀ d ∈ A, d ∉ planteadas t.hechos) → Propias t.e.openItems t.hechos →
    Propias t'.e.openItems t'.hechos

namespace Anota

variable {A A' B : List Duda} {t u v : Trabajo}

/-- What a step closed, and then a step that closes nothing. -/
theorem trans (h : Anota A B t u) (k : Anota A' [] u v) : Anota (A ++ A') B t v where
  plantea := by rw [k.plantea, h.plantea, List.append_assoc]
  recuerdos := fun hr => k.recuerdos (h.recuerdos hr)
  entra := by
    intro d hd
    rcases k.entra d hd with hd | hd
    · exact (h.entra d hd).imp_right (List.mem_append_left A')
    · exact Or.inr (List.mem_append_right A hd)
  queda := by
    intro d hd
    rcases h.queda d hd with hd | hd
    · exact Or.inl ((k.queda d hd).resolve_right List.not_mem_nil)
    · exact Or.inr hd
  abre := by
    intro d hd hr
    rcases List.mem_append.mp hd with hd | hd
    · exact (k.queda d (h.abre d hd hr)).resolve_right List.not_mem_nil
    · exact k.abre d hd hr
  sale := by
    intro hu hs d hd hv
    rcases k.entra d hv with hv | hv
    · exact List.mem_append_left A' (h.sale hu hs d hd hv)
    · exact List.mem_append_right A hv
  propias := by
    intro hnd hnew hp
    obtain ⟨hA, hA', hdis⟩ := List.nodup_append.mp hnd
    refine k.propias hA' (fun d hd => ?_) (h.propias hA (fun d hd => hnew d (List.mem_append_left A' hd)) hp)
    rw [h.plantea, List.mem_append]
    rintro (hq | hq)
    · exact hnew d (List.mem_append_right A hd) hq
    · exact hdis d hq d hd rfl

/-- What a step took out, and then a step that closes more. -/
theorem seguida {B' : List Duda} (h : Anota [] B t u) (hsub : u.e.openItems.Sublist t.e.openItems)
    (k : Anota A B' u v) : Anota A (B ++ B') t v where
  plantea := by rw [k.plantea, h.plantea, List.append_nil]
  recuerdos := fun hr => k.recuerdos (h.recuerdos hr)
  entra := by
    intro d hd
    rcases k.entra d hd with hd | hd
    · exact Or.inl ((h.entra d hd).resolve_right List.not_mem_nil)
    · exact Or.inr hd
  queda := by
    intro d hd
    rcases h.queda d hd with hd | hd
    · exact (k.queda d hd).imp_right (List.mem_append_right B)
    · exact Or.inr (List.mem_append_left B' hd)
  abre := k.abre
  sale := by
    intro hu hs d hd hv
    rcases List.mem_append.mp hd with hd | hd
    · rcases k.entra d hv with hv | hv
      · exact absurd (h.sale hu hs d hd hv) List.not_mem_nil
      · exact hv
    · have hlen : u.e.siNos.length ≤ t.e.siNos.length := (hsub.filterMap Item.siNo?).length_le
      exact k.sale (hu.sublist hsub) (hlen.trans hs) d hd hv
  propias := by
    intro hnd hnew hp
    refine k.propias hnd ?_ (h.propias List.nodup_nil (fun d hd => absurd hd List.not_mem_nil) hp)
    rwa [h.plantea, List.append_nil]

/-- Facts about what is open already. -/
theorem of_dudas {l : List Hecho} (hh : t'.hechos = t.hechos ++ l)
    (hk : ∀ k ∈ l, k.recuerda = false ∧ ∀ code name ops, k ≠ .conflictoCantidad code name ops)
    (hd : dudas t'.e.openItems = dudas t.e.openItems)
    (hc : ∀ c, Item.conflicto c ∈ t'.e.openItems → Item.conflicto c ∈ t.e.openItems)
    (hA : ∀ d ∈ planteadas l, (∀ code, d ≠ .restar code) → d ∈ dudas t.e.openItems) :
    Anota (planteadas l) [] t t' where
  plantea := by rw [hh, planteadas_append]
  recuerdos := by
    intro hr h hh'
    rw [hh] at hh'
    exact (List.mem_append.mp hh').elim (hr h) fun hk' => (hk h hk').1
  entra d h := Or.inl (hd ▸ h)
  queda d h := Or.inl (hd ▸ h)
  abre d h hr := hd ▸ hA d h hr
  sale _ _ _ h := absurd h List.not_mem_nil
  propias := by
    intro _ _ hp c hcon name ops hfact
    rw [hh] at hfact
    rcases List.mem_append.mp hfact with hfact | hfact
    · exact hp c (hc c hcon) name ops hfact
    · exact absurd rfl ((hk _ hfact).2 _ _ _)

/-- Nothing is asked or settled. -/
theorem of_eq {l : List Hecho} (hh : t'.hechos = t.hechos ++ l)
    (hk : ∀ k ∈ l, k.duda? = none) (hi : t'.e.openItems = t.e.openItems) : Anota [] [] t t' := by
  have hnil : planteadas l = [] := List.filterMap_eq_nil_iff.mpr hk
  have h : Anota (planteadas l) [] t t' :=
    of_dudas hh ?_ (by rw [hi]) (fun c hc => hi ▸ hc) ?_
  · rw [hnil] at h
    exact h
  · intro k hmem
    have hnone := hk k hmem
    cases k <;> first | (cases hnone; done) | exact ⟨rfl, nofun⟩
  · rw [hnil]
    exact fun d hd => absurd hd List.not_mem_nil

/-- A question opens the doubt it is about. -/
theorem of_abre {k : Hecho} {d : Duda} (hh : t'.hechos = t.hechos ++ [k])
    (hk : k.duda? = some d) (hr : k.recuerda = false) (hcon : ∀ code, d ≠ .conflicto code)
    (hi : dudas t'.e.openItems = dudas t.e.openItems ++ [d])
    (hc : ∀ c, Item.conflicto c ∈ t'.e.openItems → Item.conflicto c ∈ t.e.openItems) :
    Anota [d] [] t t' where
  plantea := by rw [hh, planteadas_append, planteadas, planteadas, List.filterMap_cons_some hk]; rfl
  recuerdos := by
    intro hrec h hh'
    rw [hh] at hh'
    rcases List.mem_append.mp hh' with hh' | hh'
    · exact hrec h hh'
    · exact List.mem_singleton.mp hh' ▸ hr
  entra x hx := List.mem_append.mp (hi ▸ hx)
  queda x hx := Or.inl (hi ▸ List.mem_append_left [d] hx)
  abre x hx _ := hi ▸ List.mem_append_right _ hx
  sale _ _ _ h := absurd h List.not_mem_nil
  propias := by
    intro _ _ hp c hcmem name ops hfact
    rw [hh] at hfact
    rcases List.mem_append.mp hfact with hfact | hfact
    · exact hp c (hc c hcmem) name ops hfact
    · obtain rfl := List.mem_singleton.mp hfact
      exact absurd (Option.some.inj hk).symm (hcon c.code)

/-- A proposal is put forward. -/
theorem of_siNo {v : Propuesta} {k : Hecho} (hh : t'.hechos = t.hechos ++ [k])
    (hk : k.duda? = some v.duda) (hr : k.recuerda = false)
    (hi : t'.e.openItems = t.e.openItems ++ [.siNo v]) : Anota [v.duda] [] t t' := by
  refine .of_abre hh hk hr v.duda_ne.2.1 ?_ fun c hc => ?_
  · rw [hi]
    exact List.filterMap_append
  · rw [hi] at hc
    rcases List.mem_append.mp hc with hc | hc
    · exact hc
    · cases List.mem_singleton.mp hc

/-- A conflict takes the place of the one about its code. The facts that are dropped ask nothing. -/
theorem of_conflicto {c : Conflicto} {name : Texto} {l : List Hecho}
    (hh : t'.hechos = l ++ [.conflictoCantidad c.code name c.opcionesQty]) (hsub : l ⊆ t.hechos)
    (hl : planteadas l = planteadas t.hechos)
    (hi : t'.e.openItems = quitaConflictos c.code t.e.openItems ++ [.conflicto c]) :
    Anota [.conflicto c.code] [] t t' where
  plantea := by rw [hh, planteadas_append, hl]; rfl
  recuerdos := by
    intro hrec h hh'
    rw [hh] at hh'
    rcases List.mem_append.mp hh' with hh' | hh'
    · exact hrec h (hsub hh')
    · exact List.mem_singleton.mp hh' ▸ rfl
  entra := by
    intro x hx
    rw [hi] at hx
    obtain ⟨j, hj, hjx⟩ := mem_dudas.mp hx
    rcases List.mem_append.mp hj with hj | hj
    · exact Or.inl (mem_dudas.mpr ⟨j, List.mem_of_mem_filter hj, hjx⟩)
    · obtain rfl := List.mem_singleton.mp hj
      exact Or.inr (List.mem_singleton.mpr (Option.some.inj hjx).symm)
  queda := by
    intro x hx
    left
    rw [hi]
    obtain ⟨j, hj, hjx⟩ := mem_dudas.mp hx
    by_cases hcode : j.conflictoDe c.code
    · refine mem_dudas.mpr ⟨.conflicto c, List.mem_append_right _ (List.mem_singleton_self _), ?_⟩
      cases j with
      | conflicto c' =>
        have heq : c'.code = c.code := by simpa [Item.conflictoDe] using hcode
        rw [← hjx, Item.duda?, Item.duda?, heq]
      | producto p => cases hcode
      | siNo v => cases hcode
      | revisar t q => cases hcode
    · exact mem_dudas.mpr ⟨j, List.mem_append_left _ (List.mem_filter.mpr ⟨hj, by simpa using hcode⟩), hjx⟩
  abre := by
    intro x hx _
    obtain rfl := List.mem_singleton.mp hx
    exact hi ▸ mem_dudas.mpr ⟨_, List.mem_append_right _ (List.mem_singleton_self _), rfl⟩
  sale _ _ _ h := absurd h List.not_mem_nil
  propias := by
    intro _ hnew hp c' hc' name' ops hfact
    rw [hh] at hfact
    rw [hi] at hc'
    rcases List.mem_append.mp hc' with hc' | hc'
    · obtain ⟨hc', hcode⟩ := List.mem_filter.mp hc'
      rcases List.mem_append.mp hfact with hfact | hfact
      · exact hp c' hc' name' ops (hsub hfact)
      · have heq := (Hecho.conflictoCantidad.inj (List.mem_singleton.mp hfact)).1
        simp [Item.conflictoDe, heq] at hcode
    · obtain rfl := Item.conflicto.inj (List.mem_singleton.mp hc')
      rcases List.mem_append.mp hfact with hfact | hfact
      · exact absurd (mem_planteadas.mpr ⟨_, hsub hfact, rfl⟩) (hnew _ (List.mem_singleton_self _))
      · exact (Hecho.conflictoCantidad.inj (List.mem_singleton.mp hfact)).2.2

end Anota

/-! ## Doubts are told apart -/

/-- In items without repetitions and with one proposal at most, each doubt is one item. -/
theorem nodup_dudas {is : List Item} (hu : Unicos is) (hs : (is.filterMap Item.siNo?).length ≤ 1) :
    (dudas is).Nodup := by
  have hsi : (is.filterMap Item.siNo?).Pairwise fun _ _ => False := by
    match h : is.filterMap Item.siNo? with
    | [] => exact List.Pairwise.nil
    | [v] => exact List.pairwise_singleton _ v
    | _ :: _ :: _ => simp [h] at hs
  have hprod := List.pairwise_filterMap.mp hu.productos
  have hcon := List.pairwise_filterMap.mp hu.conflictos
  have hprop := List.pairwise_filterMap.mp hsi
  refine List.pairwise_filterMap.mpr (((hprod.and hcon).and hprop).imp ?_)
  rintro i j ⟨⟨hp, hc⟩, hv⟩ d hi d' hj rfl
  cases i with
  | producto p =>
    obtain ⟨q, rfl, hq⟩ := duda_producto (hj.trans hi.symm)
    exact hp _ rfl _ rfl hq.symm
  | conflicto c =>
    obtain ⟨k, rfl, hk⟩ := duda_conflicto (hj.trans hi.symm)
    exact hc _ rfl _ rfl hk.symm
  | siNo v =>
    cases j with
    | siNo w => exact hv _ rfl _ rfl
    | producto p => exact v.duda_ne.1 _ (Option.some.inj (hi.trans hj.symm))
    | conflicto c => exact v.duda_ne.2.1 _ (Option.some.inj (hi.trans hj.symm))
    | revisar texto qty => cases hj
  | revisar texto qty => cases hi

theorem notMem_dudas_erase {is : List Item} {i : Item} {d : Duda} (hi : i ∈ is) (hd : i.duda? = some d)
    (hn : (dudas is).Nodup) : d ∉ dudas (is.erase i) := by
  have hperm : (dudas is).Perm (d :: dudas (is.erase i)) := by
    have h := (List.perm_cons_erase hi).filterMap Item.duda?
    rwa [List.filterMap_cons_some hd] at h
  exact (List.nodup_cons.mp (hperm.nodup_iff.mp hn)).1

namespace Anota

variable {t t' : Trabajo}

/-- An item is taken out, and nothing is asked. -/
theorem of_quita {i : Item} {d : Duda} {l : List Hecho} (hmem : i ∈ t.e.openItems)
    (hd : i.duda? = some d) (hi : t'.e.openItems = t.e.openItems.erase i)
    (hh : t'.hechos = t.hechos ++ l) (hk : ∀ k ∈ l, k.duda? = none) : Anota [] [d] t t' where
  plantea := by rw [hh, planteadas_append, planteadas, planteadas, List.filterMap_eq_nil_iff.mpr hk]
  recuerdos := by
    intro hrec h hh'
    rw [hh] at hh'
    rcases List.mem_append.mp hh' with hh' | hh'
    · exact hrec h hh'
    · have hnone := hk h hh'
      cases h <;> first | rfl | cases hnone
  entra := by
    intro x hx
    obtain ⟨j, hj, hjx⟩ := mem_dudas.mp (hi ▸ hx)
    exact Or.inl (mem_dudas.mpr ⟨j, List.mem_of_mem_erase hj, hjx⟩)
  queda := by
    intro x hx
    obtain ⟨j, hj, hjx⟩ := mem_dudas.mp hx
    by_cases hji : j = i
    · subst hji
      exact Or.inr (List.mem_singleton.mpr (Option.some.inj (hjx.symm.trans hd)))
    · exact Or.inl (hi ▸ mem_dudas.mpr ⟨j, (List.mem_erase_of_ne hji).mpr hj, hjx⟩)
  abre _ h := absurd h List.not_mem_nil
  sale := by
    intro hu hs x hx hx'
    obtain rfl := List.mem_singleton.mp hx
    exact absurd (hi ▸ hx') (notMem_dudas_erase hmem hd (nodup_dudas hu hs))
  propias := by
    intro _ _ hp c hc name ops hfact
    rw [hh] at hfact
    rw [hi] at hc
    rcases List.mem_append.mp hfact with hfact | hfact
    · exact hp c (List.mem_of_mem_erase hc) name ops hfact
    · cases hk _ hfact

/-- The open products leave as review lines. -/
theorem of_revisa {l : List Hecho} (hi : t'.e.openItems = revisa t.e.productosAbiertos t.e.openItems)
    (hh : t'.hechos = t.hechos ++ l) (hk : ∀ k ∈ l, k.duda? = none) :
    Anota [] (t.e.productosAbiertos.map fun p => .producto p.texto) t t' where
  plantea := by rw [hh, planteadas_append, planteadas, planteadas, List.filterMap_eq_nil_iff.mpr hk]
  recuerdos := by
    intro hrec h hh'
    rw [hh] at hh'
    rcases List.mem_append.mp hh' with hh' | hh'
    · exact hrec h hh'
    · have hnone := hk h hh'
      cases h <;> first | rfl | cases hnone
  entra := by
    intro x hx
    obtain ⟨j, hj, hjx⟩ := mem_dudas.mp (hi ▸ hx)
    rcases mem_revisa hj with hj | ⟨p, -, rfl⟩
    · exact Or.inl (mem_dudas.mpr ⟨j, hj, hjx⟩)
    · cases hjx
  queda := by
    intro x hx
    obtain ⟨j, hj, hjx⟩ := mem_dudas.mp hx
    rcases mem_revisa_of_mem t.e.productosAbiertos hj with hj | ⟨p, hp, rfl, -⟩
    · exact Or.inl (hi ▸ mem_dudas.mpr ⟨j, hj, hjx⟩)
    · exact Or.inr (List.mem_map.mpr ⟨p, hp, Option.some.inj hjx⟩)
  abre _ h := absurd h List.not_mem_nil
  sale := by
    intro _ _ x hx hx'
    obtain ⟨p, -, rfl⟩ := List.mem_map.mp hx
    obtain ⟨q, hq, -⟩ := producto_mem_dudas.mp (hi ▸ hx')
    have hmem := List.mem_filterMap.mpr ⟨_, hq, (rfl : (Item.producto q).producto? = some q)⟩
    have hnil := revisa_todos t.e.openItems
    rw [Estado.productosAbiertos, hnil] at hmem
    cases hmem
  propias := by
    intro _ _ hp c hc name ops hfact
    rw [hh] at hfact
    rw [hi] at hc
    rcases List.mem_append.mp hfact with hfact | hfact
    · rcases mem_revisa hc with hc | ⟨p, -, hp'⟩
      · exact hp c hc name ops hfact
      · cases hp'
    · cases hk _ hfact

end Anota

/-! ## The operations -/

/-- The question raised by asking for another quantity of a line of the cart. -/
def Estado.choca (e : Estado) (code : Texto) (qty : Option ℤ) : List Duda :=
  match e.linea code, qty with
  | some ln, some q => if q = ln.qty then [] else [.conflicto code]
  | _, _ => []

/-- The questions raised by the lines of a proposal, one after the other. -/
def chocan (fuente : Texto) : Trabajo → List Linea → List Duda
  | _, [] => []
  | t, l :: ls =>
    t.e.choca l.code (some (orNum (some l.qty) 1)) ++ chocan fuente (t.addLinea fuente l) ls

/-- The question of the proposal that an operation opens. -/
def Estado.propone (e : Estado) (op : Op) : List Duda :=
  if e.siNos = [] then ((apertura e op).map Propuesta.duda).toList else []

/-- The questions an operation adds to the facts. -/
def plantea (fm : Bool) (t : Trabajo) : Op → List Duda
  | .add code _ _ qty _ => if fm then [] else t.e.choca code qty
  | .elige texto code _ _ _ => t.e.choca code
      ((t.e.productosAbiertos.find? fun p => p.texto = texto).bind Producto.qty)
  | .modificar code name modo valor conNumeral n =>
    if modo = .eliminar then
      if conNumeral ∧ (t.e.linea code).isSome then [.restar code] else []
    else t.e.propone (.modificar code name modo valor conNumeral n)
  | .opciones texto _ _ _ => [.producto texto]
  | .sinCandidatos texto _ => [.producto texto]
  | .rechazo objetivo =>
    ((objetivoRechazo t.e.productosAbiertos objetivo).map fun p => Duda.producto p.texto).toList
  | .confirmar => match t.e.siNoVivo with
    | none => []
    | some v => match v.tipo with
      | .media => chocan "media" (t.quita (.siNo v)) v.items
      | .repetir => chocan "repetir" (t.quita (.siNo v)) v.items
      | _ => []
  | .cerrar => t.e.propone .cerrar
  | .repetirUltimo qo => t.e.propone (.repetirUltimo qo)
  | _ => []

/-- The doubts an operation settles. -/
def zanja (e : Estado) : Op → List Duda
  | .elige texto _ _ _ _ =>
    ((e.productosAbiertos.find? fun p => p.texto = texto).map fun p => Duda.producto p.texto).toList
  | .eligeQty code valor =>
    (((e.conflictos.find? fun c => c.code = code).filter fun c => valor ∈ c.opcionesQty).map
      fun c => Duda.conflicto c.code).toList
  | .confirmar => match e.siNoVivo with
    | none => []
    | some v => v.duda ::
      if v.tipo = .cierre then e.productosAbiertos.map fun p => .producto p.texto else []
  | .negar => (e.siNoVivo.map Propuesta.duda).toList
  | .otro .noSabe => e.productosAbiertos.map fun p => .producto p.texto
  | _ => []

section Steps

variable (fm : Bool) (t : Trabajo)

theorem add_anota (code name brand : Texto) (qty : Option ℤ) (fuente aliasTexto : Texto) :
    Anota (t.e.choca code qty) [] t (t.add code name brand qty fuente aliasTexto) := by
  unfold Estado.choca
  rcases t.add_cases code name brand qty fuente aliasTexto with
    ⟨ln, hln, hq, h⟩ | ⟨ln, q, hln, rfl, hq, h⟩ | ⟨hln, h⟩
  all_goals rw [h, hln]
  · rcases hq with rfl | rfl
    · exact .of_eq rfl (by simp [Hecho.duda?]) rfl
    · simp only [if_true]
      exact .of_eq rfl (by simp [Hecho.duda?]) rfl
  · simp only [if_neg hq]
    exact .of_conflicto (c := ⟨code, _, _⟩) rfl (List.Subset.refl _) rfl rfl
  · exact .of_eq rfl (by simp [Hecho.duda?]) rfl

theorem addLineas_anota (fuente : Texto) (items : List Linea) :
    Anota (chocan fuente t items) [] t (items.foldl (Trabajo.addLinea fuente) t) := by
  induction items generalizing t with
  | nil => exact .of_eq (l := []) (by simp) (by simp) rfl
  | cons l items ih => exact (add_anota t l.code l.name [] _ fuente []).trans (ih (t.addLinea fuente l))

theorem nuevaSiNo_anota (v : Propuesta) (titulo : Titulo) (hv : v.tipo ≠ .baja) :
    Anota (if t.e.siNos = [] then [v.duda] else []) [] t (t.nuevaSiNo v titulo).1 := by
  rcases t.nuevaSiNo_cases v titulo with ⟨w, hw, h⟩ | ⟨hnone, h⟩
  all_goals rw [h]
  · obtain ⟨ws, hws⟩ := siNoVivo_eq_some.mp hw
    rw [if_neg (by simp [hws])]
    exact .of_eq (l := []) (by simp) (by simp) rfl
  · rw [if_pos (siNoVivo_eq_none.mp hnone)]
    refine .of_siNo rfl ?_ rfl rfl
    simp [Hecho.duda?, Propuesta.duda, hv]

theorem setQty_anota (code name : Texto) {modo : Modo} (valor : Option ℤ) (b : Bool) (n : Option ℤ)
    (hm : modo ≠ .eliminar) :
    Anota (t.e.propone (.modificar code name modo valor b n)) [] t
      (t.setQty code name modo valor) := by
  have hnone (h : apertura t.e (.modificar code name modo valor b n) = none) :
      t.e.propone (.modificar code name modo valor b n) = [] := by
    simp [Estado.propone, h]
  rcases t.setQty_cases code name modo valor with
    ⟨hln, h⟩ | ⟨ln, hln, hv, h⟩ | ⟨ln, w, -, hw, h⟩ | ⟨ln, ⟨hln, v, rfl, hc, hn⟩, hw, h⟩ |
      ⟨ln, q, ⟨hln, v, rfl, hc, hn, hq⟩, h⟩
  all_goals rw [h]
  · rw [hnone (by simp [apertura, hln])]
    exact .of_eq rfl (by simp [Hecho.duda?]) rfl
  · rw [hnone]
    · exact .of_eq rfl (by simp [Hecho.duda?]) rfl
    · rcases hv with rfl | rfl
      · simp [apertura, hln]
      · cases valor <;> simp [apertura, hln]
  · obtain ⟨vs, hvs⟩ := siNoVivo_eq_some.mp hw
    rw [Estado.propone, if_neg (by simp [hvs])]
    exact .of_eq (l := []) (by simp) (by simp) rfl
  · have hopen : t.e.propone (.modificar code name modo (some v) b n) = [Duda.baja code] := by
      simp [Estado.propone, siNoVivo_eq_none.mp hw, apertura, hln, hm, hc, hn, Propuesta.duda]
    rw [hopen]
    exact .of_siNo (v := { tipo := .baja, code := code, name := _ }) rfl rfl rfl rfl
  · rw [hnone]
    · exact .of_eq rfl (by simp [Hecho.duda?]) rfl
    · have hpos : ¬ nuevaQty modo ln.qty v ≤ 0 := by omega
      simp [apertura, hln, hpos]

end Steps

/-- The first product of a text, after it has changed. -/
theorem find?_cambiaProducto (texto : Texto) {f : Producto → Producto}
    (hf : ∀ p, (f p).texto = p.texto) (items : List Item) :
    ((cambiaProducto texto f items).filterMap Item.producto?).find? (fun p => p.texto = texto) =
      ((items.filterMap Item.producto?).find? fun p => p.texto = texto).map f := by
  induction items with
  | nil => rfl
  | cons i items ih =>
    cases i with
    | producto p =>
      by_cases hp : p.texto = texto
      · simp [cambiaProducto, hp, Item.producto?, hf]
      · simpa [cambiaProducto, hp, Item.producto?] using ih
    | revisar t q => exact ih
    | conflicto c => exact ih
    | siNo v => exact ih

theorem conflicto_of_cambiaProducto {texto : Texto} {f : Producto → Producto} {items : List Item}
    {c : Conflicto} (h : Item.conflicto c ∈ cambiaProducto texto f items) : Item.conflicto c ∈ items := by
  rcases mem_cambiaProducto h with h | ⟨p, -, -, hp⟩
  · exact h
  · cases hp

section Steps

variable (fm : Bool) (t : Trabajo)

/-- The locals with the product open. -/
def Trabajo.conProducto (texto : Texto) (qty : Option ℤ) : Trabajo :=
  match t.e.productosAbiertos.find? fun p => p.texto = texto with
  | some _ => t
  | none => t.abre (.producto { texto := texto, qty := qty, nuevo := true })

theorem conProducto_cases (texto : Texto) (qty : Option ℤ) :
    (∃ p, t.e.productosAbiertos.find? (fun p => p.texto = texto) = some p ∧
      t.conProducto texto qty = t) ∨
    (t.e.productosAbiertos.find? (fun p => p.texto = texto) = none ∧ t.conProducto texto qty =
      t.abre (.producto { texto := texto, qty := qty, nuevo := true })) := by
  unfold Trabajo.conProducto
  cases h : t.e.productosAbiertos.find? fun p => p.texto = texto with
  | some p => exact Or.inl ⟨p, rfl, rfl⟩
  | none => exact Or.inr ⟨rfl, rfl⟩

/-- After that the product is found. -/
theorem find?_conProducto (texto : Texto) (qty : Option ℤ) : ∃ p,
    (t.conProducto texto qty).e.productosAbiertos.find? (fun p => p.texto = texto) = some p ∧
      p.texto = texto := by
  rcases conProducto_cases t texto qty with ⟨p, hp, h⟩ | ⟨hnone, h⟩
  · rw [h]
    exact ⟨p, hp, by simpa using List.find?_some hp⟩
  · refine ⟨{ texto := texto, qty := qty, nuevo := true }, ?_, rfl⟩
    rw [h]
    have happ : (t.abre (.producto { texto := texto, qty := qty, nuevo := true })).e.productosAbiertos =
        t.e.productosAbiertos ++ [{ texto := texto, qty := qty, nuevo := true }] :=
      List.filterMap_append
    rw [happ, List.find?_append, hnone]
    simp

/-- Asking about a product, which opens it if it is not open. -/
theorem pregunta_anota (texto : Texto) (qty : Option ℤ) (k : Hecho) {t' : Trabajo}
    (hd : dudas t'.e.openItems = dudas (t.conProducto texto qty).e.openItems)
    (hc : ∀ c, Item.conflicto c ∈ t'.e.openItems →
      Item.conflicto c ∈ (t.conProducto texto qty).e.openItems)
    (hh : t'.hechos = t.hechos ++ [k]) (hk : k.duda? = some (.producto texto))
    (hr : k.recuerda = false) : Anota [.producto texto] [] t t' := by
  rcases conProducto_cases t texto qty with ⟨p, hp, h⟩ | ⟨-, h⟩
  all_goals rw [h] at hd hc
  · have hks : planteadas [k] = [.producto texto] := by
      rw [planteadas, List.filterMap_cons_some hk]
      rfl
    have hopen : Duda.producto texto ∈ dudas t.e.openItems :=
      producto_mem_dudas.mpr ⟨p, mem_productosAbiertos.mp (List.mem_of_find?_eq_some hp),
        by simpa using List.find?_some hp⟩
    have hanota := Anota.of_dudas hh ?_ hd hc ?_
    · rw [hks] at hanota
      exact hanota
    · intro j hj
      obtain rfl := List.mem_singleton.mp hj
      refine ⟨hr, ?_⟩
      rintro code name ops rfl
      cases hk
    · rw [hks]
      intro d hd' _
      exact List.mem_singleton.mp hd' ▸ hopen
  · refine .of_abre hh hk hr nofun ?_ fun c hcmem => ?_
    · rw [hd]
      exact List.filterMap_append
    · rcases List.mem_append.mp (hc c hcmem) with hcmem | hcmem
      · exact hcmem
      · cases List.mem_singleton.mp hcmem

/-- What `opciones` makes of its product. -/
def conOpciones (qty : Option ℤ) (ops : List Opcion) (p : Producto) : Producto :=
  { p with qty := qty.orElse fun _ => p.qty
           opciones := ops.filter fun o => !p.rechazados.contains o.code }

/-- The product is open, its options are those not rejected before, and they are asked about. -/
theorem paso_opciones (texto : Texto) (qty : Option ℤ) (ops : List Opcion) (ind : Bool) :
    ∃ p, p.texto = texto ∧
      Item.producto p ∈ cambiaProducto texto (conOpciones qty ops) (t.conProducto texto qty).e.openItems ∧
      paso fm t (.opciones texto qty ops ind) =
        ((t.conProducto texto qty).conEstado { (t.conProducto texto qty).e with
          openItems := cambiaProducto texto (conOpciones qty ops)
            (t.conProducto texto qty).e.openItems }).emit
          (.preguntaOpciones p.texto p.qty p.opciones ind) := by
  obtain ⟨p, hp, hpt⟩ := find?_conProducto t texto qty
  have hfind := find?_cambiaProducto texto (f := conOpciones qty ops) (fun _ => rfl)
    (t.conProducto texto qty).e.openItems
  rw [← Estado.productosAbiertos, hp] at hfind
  refine ⟨conOpciones qty ops p, hpt, ?_, ?_⟩
  · obtain ⟨i, hi, hip⟩ := List.mem_filterMap.mp (List.mem_of_find?_eq_some hfind)
    obtain rfl := (producto?_eq_some i _).mp hip
    exact hi
  · rcases conProducto_cases t texto qty with ⟨q, hq, h⟩ | ⟨hq, h⟩
    all_goals
      rw [h] at hfind ⊢
      simp only [paso, hq]
      split
    · next r hr =>
      obtain rfl : conOpciones qty ops p = r := Option.some.inj (hfind.symm.trans hr)
      rfl
    · next hr => cases hfind.symm.trans hr
    · next r hr =>
      obtain rfl : conOpciones qty ops p = r := Option.some.inj (hfind.symm.trans hr)
      rfl
    · next hr => cases hfind.symm.trans hr

theorem hechos_conProducto (texto : Texto) (qty : Option ℤ) :
    (t.conProducto texto qty).hechos = t.hechos := by
  rcases conProducto_cases t texto qty with ⟨p, -, h⟩ | ⟨-, h⟩
  · rw [h]
  · rw [h]
    rfl

theorem siNoVivo_mem {e : Estado} {v : Propuesta} (h : e.siNoVivo = some v) :
    Item.siNo v ∈ e.openItems := by
  obtain ⟨i, hi, hv⟩ := List.mem_filterMap.mp (List.mem_of_mem_head? h)
  obtain rfl := (siNo?_eq_some i v).mp hv
  exact hi

theorem mem_of_objetivoRechazo {ps : List Producto} {objetivo : Option Texto} {p : Producto}
    (h : objetivoRechazo ps objetivo = some p) : p ∈ ps := by
  unfold objetivoRechazo at h
  split at h
  · next q hq =>
    obtain rfl := Option.some.inj h
    exact List.mem_of_find?_eq_some hq
  · split at h
    · obtain rfl := Option.some.inj h
      exact List.mem_singleton_self _
    · cases h

theorem opciones_anota (texto : Texto) (qty : Option ℤ) (ops : List Opcion) (ind : Bool) :
    Anota [.producto texto] [] t (paso fm t (.opciones texto qty ops ind)) := by
  obtain ⟨p, rfl, -, h⟩ := paso_opciones fm t texto qty ops ind
  rw [h]
  refine pregunta_anota t p.texto qty (.preguntaOpciones p.texto p.qty p.opciones ind) ?_
    (fun c hc => conflicto_of_cambiaProducto hc) ?_ rfl rfl
  · refine filterMap_cambiaProducto_of_eq (f := Item.duda?) (g := conOpciones qty ops) ?_ p.texto _
    exact fun _ => rfl
  · exact congrArg (· ++ [_]) (hechos_conProducto t p.texto qty)

theorem sinCandidatos_anota (texto : Texto) (qty : Option ℤ) :
    Anota [.producto texto] [] t (paso fm t (.sinCandidatos texto qty)) := by
  have h : paso fm t (.sinCandidatos texto qty) =
    (t.conProducto texto qty).emit (.sinCandidatos texto) := rfl
  rw [h]
  refine pregunta_anota t texto qty (.sinCandidatos texto) rfl (fun _ hc => hc) ?_ rfl rfl
  exact congrArg (· ++ [_]) (hechos_conProducto t texto qty)

theorem rechazo_anota (objetivo : Option Texto) :
    Anota ((objetivoRechazo t.e.productosAbiertos objetivo).map fun p => Duda.producto p.texto).toList
      [] t (paso fm t (.rechazo objetivo)) := by
  simp only [paso]
  split
  · next hnone =>
    rw [hnone]
    exact .of_eq rfl (by simp [Hecho.duda?]) rfl
  · next p hp =>
    rw [hp]
    refine .of_dudas (l := [.rechazoRegistrado p.texto]) rfl ?_ ?_
      (fun c hc => conflicto_of_cambiaProducto hc) ?_
    · simp [Hecho.recuerda]
    · refine filterMap_cambiaProducto_of_eq (f := Item.duda?) ?_ p.texto _
      exact fun _ => rfl
    · intro d hd _
      obtain rfl := List.mem_singleton.mp hd
      exact producto_mem_dudas.mpr ⟨p, mem_productosAbiertos.mp (mem_of_objetivoRechazo hp), rfl⟩

/-- The proposal of an operation that proposes without a line of the cart. -/
theorem propone_anota {op : Op} {v : Propuesta} {titulo : Titulo} (hop : apertura t.e op = some v)
    (hv : v.tipo ≠ .baja) : Anota (t.e.propone op) [] t (t.nuevaSiNo v titulo).1 := by
  rw [Estado.propone, hop]
  exact nuevaSiNo_anota t v titulo hv

/-- An operation that opens no proposal asks none. -/
theorem propone_of_apertura {op : Op} (hop : apertura t.e op = none) : t.e.propone op = [] := by
  simp [Estado.propone, hop]

/-- Whether to remove a line or to subtract from it is asked with nothing open about it. -/
theorem eliminar_anota (code name : Texto) (valor : Option ℤ) (b : Bool) (n : Option ℤ) :
    Anota (if b ∧ (t.e.linea code).isSome then [.restar code] else []) [] t
      (paso fm t (.modificar code name .eliminar valor b n)) := by
  simp only [paso, if_true]
  cases hln : t.e.linea code with
  | none =>
    simp only [Option.isSome_none, Bool.false_eq_true, and_false, if_false]
    exact .of_eq (l := []) (List.append_nil _).symm (by simp) rfl
  | some ln =>
    cases b with
    | true =>
      have hA : planteadas [.preguntaEliminarORestar ln.code ln.name (orNum n 1)] = [.restar code] :=
        congrArg (fun c => [Duda.restar c]) (linea_code hln)
      simp only [Option.isSome_some, and_self, if_true]
      rw [← hA]
      refine .of_dudas rfl (by simp [Hecho.recuerda]) rfl (fun _ hc => hc) ?_
      intro d hd hr
      obtain rfl := List.mem_singleton.mp (hA ▸ hd)
      exact absurd rfl (hr code)
    | false =>
      simp only [Bool.false_eq_true, false_and, if_false]
      exact .of_eq rfl (by simp [Hecho.duda?]) rfl

theorem elige_anota (texto code name brand fuente : Texto) :
    Anota (plantea fm t (.elige texto code name brand fuente))
      (zanja t.e (.elige texto code name brand fuente)) t
      (paso fm t (.elige texto code name brand fuente)) := by
  simp only [plantea, zanja, paso]
  split
  · next p hp =>
    rw [hp]
    have hmem : Item.producto p ∈ t.e.openItems :=
      mem_productosAbiertos.mp (List.mem_of_find?_eq_some hp)
    have hquita : Anota [] [.producto p.texto] t (t.quita (.producto p)) :=
      .of_quita (l := []) hmem rfl rfl (by simp [Trabajo.quita, Trabajo.conEstado]) (by simp)
    exact hquita.trans (add_anota (t.quita (.producto p)) code name brand p.qty fuente texto)
  · next hnone =>
    rw [hnone]
    exact add_anota t code name brand none fuente texto

theorem eligeQty_anota (code : Texto) (valor : ℤ) :
    Anota [] (zanja t.e (.eligeQty code valor)) t (paso fm t (.eligeQty code valor)) := by
  simp only [zanja, paso]
  split
  · next hnone =>
    rw [hnone]
    exact .of_eq (l := []) (by simp [Trabajo.descarta]) (by simp) rfl
  · next c hc =>
    rw [hc]
    by_cases hv : valor ∈ c.opcionesQty
    · have hmem : Item.conflicto c ∈ t.e.openItems :=
        mem_conflictos.mp (List.mem_of_find?_eq_some hc)
      simp only [hv, if_true, Option.filter_some, decide_true]
      split
      · exact .of_quita hmem rfl rfl rfl (by simp [Hecho.duda?])
      · exact .of_quita hmem rfl rfl rfl (by simp [Hecho.duda?])
    · simp only [hv, if_false, Option.filter_some, decide_false]
      exact .of_eq (l := []) (by simp [Trabajo.descarta]) (by simp) rfl

theorem mandaRevisar_hechos (ps : List Producto) (t : Trabajo) :
    (ps.foldl Trabajo.mandaRevisar t).hechos = t.hechos ++ ps.map fun p => .aRevisar p.texto := by
  induction ps generalizing t with
  | nil => exact (List.append_nil _).symm
  | cons p ps ih =>
    rw [List.foldl_cons, ih]
    simp [Trabajo.mandaRevisar, Trabajo.emit, Trabajo.quita, Trabajo.abre, Trabajo.conEstado]

theorem cierre_hechos (ps : List Producto) (t : Trabajo) :
    (ps.foldl (fun t p => (t.quita (.producto p)).abre (.revisar p.texto p.qty)) t).hechos =
      t.hechos := by
  induction ps generalizing t with
  | nil => rfl
  | cons p ps ih => exact ih _

/-- The products that leave for review are settled. -/
theorem mandaRevisar_anota :
    Anota [] (t.e.productosAbiertos.map fun p => .producto p.texto) t
      (t.e.productosAbiertos.foldl Trabajo.mandaRevisar t) := by
  refine .of_revisa (mandaRevisar_openItems _ t) (mandaRevisar_hechos _ t) ?_
  intro k hk
  obtain ⟨p, -, rfl⟩ := List.mem_map.mp hk
  rfl

theorem cierre_anota {v : Propuesta} (hv : v.tipo = .cierre) :
    Anota [] (t.e.productosAbiertos.map fun p => .producto p.texto) t (ejecuta t v) := by
  have hh : ∃ cart rs, (ejecuta t v).hechos = t.hechos ++ [.cerrado cart rs] := by
    simp only [ejecuta, hv]
    exact ⟨_, _, congrArg (· ++ [_]) (cierre_hechos _ _)⟩
  obtain ⟨cart, rs, hh⟩ := hh
  refine .of_revisa ?_ hh (by simp [Hecho.duda?])
  simp only [ejecuta, hv]
  exact cierre_openItems _ _

theorem confirmar_anota :
    Anota (plantea fm t .confirmar) (zanja t.e .confirmar) t (paso fm t .confirmar) := by
  cases hv : t.e.siNoVivo with
  | none =>
    have hA : plantea fm t .confirmar = [] := by simp only [plantea, hv]
    have hB : zanja t.e .confirmar = [] := by simp only [zanja, hv]
    have hp : paso fm t .confirmar = t.emit (.cortesia .confirmacionSinPregunta) := by
      simp only [paso, hv]
    rw [hA, hB, hp]
    exact .of_eq rfl (by simp [Hecho.duda?]) rfl
  | some v =>
    have hquita : Anota [] [v.duda] t (t.quita (.siNo v)) :=
      .of_quita (l := []) (siNoVivo_mem hv) rfl rfl (List.append_nil _).symm (by simp)
    have hsub : (t.quita (.siNo v)).e.openItems.Sublist t.e.openItems := List.erase_sublist
    have hprod : (t.quita (.siNo v)).e.productosAbiertos = t.e.productosAbiertos :=
      filterMap_erase_of_none rfl _
    have hp : paso fm t .confirmar = ejecuta (t.quita (.siNo v)) v := by simp only [paso, hv]
    rw [hp]
    cases ht : v.tipo with
    | cierre =>
      simp only [plantea, zanja, hv, ht, if_true]
      refine hquita.seguida hsub ?_
      rw [← hprod]
      exact cierre_anota _ ht
    | baja =>
      simp only [plantea, zanja, hv, ht, ejecuta]
      refine hquita.seguida hsub ?_
      split
      · exact .of_eq rfl (by simp [Hecho.duda?]) rfl
      · exact .of_eq (l := []) (List.append_nil _).symm (by simp) rfl
    | media =>
      simp only [plantea, zanja, hv, ht, ejecuta]
      exact hquita.seguida hsub (addLineas_anota _ "media" v.items)
    | repetir =>
      simp only [plantea, zanja, hv, ht, ejecuta]
      exact hquita.seguida hsub (addLineas_anota _ "repetir" v.items)

theorem paso_anota (op : Op) : Anota (plantea fm t op) (zanja t.e op) t (paso fm t op) := by
  cases op with
  | add code name brand qty fuente =>
    cases fm with
    | true => exact .of_eq (l := []) (by simp [paso]) (by simp) rfl
    | false => exact add_anota t code name brand qty fuente []
  | modificar code name modo valor b n =>
    by_cases hm : modo = .eliminar
    · subst hm
      simp only [plantea, zanja, if_true]
      exact eliminar_anota fm t code name valor b n
    · simp only [plantea, zanja, paso, if_neg hm]
      exact setQty_anota t code name valor b n hm
  | opciones texto qty ops ind => exact opciones_anota fm t texto qty ops ind
  | sinCandidatos texto qty => exact sinCandidatos_anota fm t texto qty
  | codigoNoExiste code => exact .of_eq rfl (by simp [Hecho.duda?]) rfl
  | rechazo objetivo => exact rechazo_anota fm t objetivo
  | elige texto code name brand fuente => exact elige_anota fm t texto code name brand fuente
  | eligeQty code valor => exact eligeQty_anota fm t code valor
  | referenciaAmbigua texto candidatas => exact .of_eq rfl (by simp [Hecho.duda?]) rfl
  | cantidadGlobal valor =>
    simp only [plantea, zanja, paso]
    split
    · split
      · exact .of_eq (l := []) (by simp) (by simp) rfl
      · exact .of_eq (l := []) (by simp) (by simp) rfl
    · exact .of_eq (l := []) (by simp) (by simp) rfl
  | repetirUltimo qo =>
    simp only [plantea, zanja, paso]
    split
    · next h =>
      rw [propone_of_apertura t (by simp [apertura, h])]
      exact .of_eq rfl (by simp [Hecho.duda?]) rfl
    · next h => exact propone_anota t (if_neg h) (by simp)
  | cerrar =>
    simp only [plantea, zanja, paso]
    split
    · next h =>
      rw [propone_of_apertura t (by simp only [apertura, h, if_true])]
      exact .of_eq rfl (by simp [Hecho.duda?]) rfl
    · next h => exact propone_anota t (if_neg h) (by simp)
  | confirmar => exact confirmar_anota fm t
  | negar =>
    simp only [plantea, zanja, paso]
    split
    · next hnone =>
      rw [hnone]
      exact .of_eq rfl (by simp [Hecho.duda?]) rfl
    · next v hv =>
      rw [hv]
      exact .of_quita (siNoVivo_mem hv) rfl rfl rfl (by simp [Hecho.duda?])
  | otro subtipo =>
    cases subtipo with
    | noSabe =>
      simp only [plantea, zanja, paso, pasoOtro]
      split
      · next hnil =>
        rw [List.isEmpty_iff.mp hnil]
        exact .of_eq rfl (by simp [Hecho.duda?]) rfl
      · exact mandaRevisar_anota t
    | _ => exact .of_eq rfl (by simp [Hecho.duda?]) rfl

end Steps

end Chatlink.Agent
