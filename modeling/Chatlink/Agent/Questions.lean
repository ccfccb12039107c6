import Chatlink.Agent.Doubts

/-!
# Doubts and questions match

After a turn every open product, every quantity conflict and the proposal should be asked about
once, and every question should have its open item. The operations keep the match as long as none
repeats a question of the turn or settles what the turn already asked; rule 7 then asks what is
left.
-/
namespace Chatlink.Agent

open Lists

/-- Each doubt has one question, each question has its doubt, and the conflicts are asked with
their own options. -/
structure Correspondidas (e : Estado) (hs : List Hecho) : Prop where
  una : ∀ d ∈ dudas e.openItems, (planteadas hs).count d = 1
  abierta : ∀ d ∈ planteadas hs, d ∈ dudas e.openItems
  propias : Propias e.openItems hs

/-- The questions the operations ask, one operation after the other. -/
def planteos (fm : Bool) : Trabajo → List Op → List Duda
  | _, [] => []
  | t, op :: ops => plantea fm t op ++ planteos fm (paso fm t op) ops

/-- The operation asks each of its questions once, about something that it leaves open, and neither
asks nor settles what the turn has asked before. -/
structure Op.Nueva (fm : Bool) (t : Trabajo) (ya : List Duda) (op : Op) : Prop where
  unas : (plantea fm t op).Nodup
  abiertas : ∀ code, .restar code ∉ plantea fm t op
  nuevas : ∀ d ∈ plantea fm t op ++ zanja t.e op, d ∉ ya

/-- What the facts ask so far is asked once, and is open. -/
structure Casada (t : Trabajo) : Prop where
  unas : (planteadas t.hechos).Nodup
  abiertas : ∀ d ∈ planteadas t.hechos, d ∈ dudas t.e.openItems

theorem planteos_concat (fm : Bool) (t : Trabajo) (xs : List Op) (op : Op) :
    planteos fm t (xs ++ [op]) = planteos fm t xs ++ plantea fm (pase1 fm t xs) op := by
  induction xs generalizing t with
  | nil => exact List.append_nil _
  | cons x xs ih =>
    rw [List.cons_append, planteos, ih, planteos, List.append_assoc]
    rfl

section Run

variable {fm : Bool} {e : Estado} {g : Option ℤ}

/-- The facts of a prefix ask what its operations asked. -/
theorem planteadas_tras (xs : List Op) :
    planteadas (tras fm e g xs).hechos = planteos fm (inicio e g) xs := by
  induction xs using List.reverseRecOn with
  | nil => rfl
  | append_singleton xs op ih =>
    rw [tras_concat, (paso_anota fm _ op).plantea, ih, planteos_concat]
    rfl

theorem Anota.casada_iff {A B : List Duda} {t t' : Trabajo} (h : Anota A B t t')
    (hu : Unicos t.e.openItems) (hs : t.e.siNos.length ≤ 1) :
    Casada t' ↔ Casada t ∧ A.Nodup ∧ (∀ code, .restar code ∉ A) ∧
      ∀ d ∈ A ++ B, d ∉ planteadas t.hechos := by
  constructor
  · intro hc
    have hnd := h.plantea ▸ hc.unas
    obtain ⟨hold, hA, hdis⟩ := List.nodup_append.mp hnd
    have hopen (d : Duda) (hd : d ∈ planteadas t.hechos) : d ∈ dudas t'.e.openItems :=
      hc.abiertas d (h.plantea ▸ List.mem_append_left A hd)
    refine ⟨⟨hold, fun d hd => ?_⟩, hA, fun code hcode => ?_, fun d hd hold' => ?_⟩
    · rcases h.entra d (hopen d hd) with hd' | hd'
      · exact hd'
      · exact absurd rfl (hdis d hd d hd')
    · exact restar_notMem_dudas _ code
        (hc.abiertas _ (h.plantea ▸ List.mem_append_right _ hcode))
    · rcases List.mem_append.mp hd with hd | hd
      · exact hdis d hold' d hd rfl
      · exact hdis d hold' d (h.sale hu hs d hd (hopen d hold')) rfl
  · rintro ⟨hc, hA, hr, hnew⟩
    constructor
    · rw [h.plantea]
      refine List.nodup_append.mpr ⟨hc.unas, hA, ?_⟩
      rintro d hd d' hd' rfl
      exact hnew d (List.mem_append_left B hd') hd
    · intro d hd
      rw [h.plantea] at hd
      rcases List.mem_append.mp hd with hd | hd
      · rcases h.queda d (hc.abiertas d hd) with hd' | hd'
        · exact hd'
        · exact absurd hd (hnew d (List.mem_append_right A hd'))
      · refine h.abre d hd ?_
        rintro code rfl
        exact hr code hd

/-- The step lemma: the questions stay matched exactly when the operation is new. -/
theorem paso_casada_iff {t : Trabajo} (hu : Unicos t.e.openItems) (hs : t.e.siNos.length ≤ 1)
    (op : Op) :
    Casada (paso fm t op) ↔ Casada t ∧ op.Nueva fm t (planteadas t.hechos) := by
  rw [(paso_anota fm t op).casada_iff hu hs]
  constructor
  · rintro ⟨hc, h₁, h₂, h₃⟩
    exact ⟨hc, h₁, h₂, h₃⟩
  · rintro ⟨hc, h⟩
    exact ⟨hc, h.unas, h.abiertas, h.nuevas⟩

theorem tras_unicos (hu : Unicos e.openItems) (xs : List Op) :
    Unicos (tras fm e g xs).e.openItems :=
  (tras_retocado (t := { estado := e, fuenteMedia := fm, cantidadGlobal := g }) xs).unicos hu

theorem tras_una (hs : e.siNos.length ≤ 1) (xs : List Op) :
    (tras fm e g xs).e.siNos.length ≤ 1 :=
  tras_siNos_le (t := { estado := e, fuenteMedia := fm, cantidadGlobal := g }) hs xs

/-- The run lemma: the questions are matched after the operations exactly when each was new. -/
theorem tras_casada_iff (hu : Unicos e.openItems) (hs : e.siNos.length ≤ 1) (ops : List Op) :
    Casada (tras fm e g ops) ↔ ∀ xs op ys, ops = xs ++ op :: ys →
      op.Nueva fm (tras fm e g xs) (planteos fm (inicio e g) xs) := by
  induction ops using List.reverseRecOn with
  | nil =>
    constructor
    · intro _ xs op ys h
      simp at h
    · intro _
      exact ⟨List.nodup_nil, fun d hd => absurd hd List.not_mem_nil⟩
  | append_singleton ops op ih =>
    rw [tras_concat, paso_casada_iff (tras_unicos hu ops) (tras_una hs ops), ih, planteadas_tras]
    constructor
    · rintro ⟨hold, hop⟩ xs op' ys h
      rcases List.eq_nil_or_concat ys with rfl | ⟨zs, z, rfl⟩
      · obtain ⟨rfl, hlast⟩ := List.append_inj' h rfl
        obtain rfl := List.head_eq_of_cons_eq hlast
        exact hop
      · refine hold xs op' zs ?_
        have h' : ops ++ [op] = (xs ++ op' :: zs) ++ [z] := by simpa using h
        exact (List.append_inj' h' rfl).1
    · intro h
      refine ⟨fun xs op' ys hsplit => h xs op' (ys ++ [op]) ?_, h ops op [] rfl⟩
      rw [hsplit]
      simp

/-- Questions about an open conflict have its options while every operation is new. -/
theorem tras_propias (ops : List Op) (h : ∀ xs op ys, ops = xs ++ op :: ys →
    op.Nueva fm (tras fm e g xs) (planteos fm (inicio e g) xs)) :
    Propias (tras fm e g ops).e.openItems (tras fm e g ops).hechos := by
  induction ops using List.reverseRecOn with
  | nil =>
    intro c _ name ops hmem
    cases hmem
  | append_singleton ops op ih =>
    have hop := h ops op [] rfl
    have hprev : Propias (tras fm e g ops).e.openItems (tras fm e g ops).hechos := by
      refine ih fun xs op' ys hsplit => h xs op' (ys ++ [op]) ?_
      rw [hsplit]
      simp
    rw [tras_concat]
    refine (paso_anota fm _ op).propias hop.unas (fun d hd => ?_) hprev
    rw [planteadas_tras]
    exact hop.nuevas d (List.mem_append_left _ hd)

/-- No operation reminds of a product. -/
theorem tras_recuerdos (ops : List Op) : ∀ h ∈ (tras fm e g ops).hechos, h.recuerda = false := by
  induction ops using List.reverseRecOn with
  | nil => exact fun h hh => absurd hh List.not_mem_nil
  | append_singleton ops op ih =>
    rw [tras_concat]
    exact (paso_anota fm _ op).recuerdos ih

end Run

/-! ## The rules before rule 7 -/

/-- The locals that rule 7 finds after the operations left `t`. -/
def Trabajo.previo (t : Trabajo) : Trabajo := regla11 (regla3 (reglaMedia t))

/-- The codes that rule 3 suspends. -/
def suspendidos (t : Trabajo) : List Texto :=
  (t.seenAdds.filter fun r => 1 < (distintas r.2).length).map Prod.fst

/-- The question of the media proposal. -/
def planteaMedia (t : Trabajo) : List Duda :=
  if t.mediaBatch.isEmpty then [] else if t.e.siNos = [] then [.propuesta .media] else []

theorem reglaMedia_anota (t : Trabajo) : Anota (planteaMedia t) [] t (reglaMedia t) := by
  unfold planteaMedia reglaMedia
  split
  · exact .of_eq (l := []) (List.append_nil _).symm (by simp) rfl
  · refine nuevaSiNo_anota t { tipo := .media, items := _ } .media ?_
    exact fun h => TipoSiNo.noConfusion h

/-- What rule 3 drops asks nothing. -/
theorem planteadas_sinQty (code : Texto) (hs : List Hecho) :
    planteadas (hs.filter fun h => !h.diceQty code) = planteadas hs := by
  refine List.filterMap_filter.trans (List.filterMap_congr fun h _ => ?_)
  cases h <;> simp [Hecho.diceQty, Hecho.duda?]

theorem regla3Una_anota (t : Trabajo) (r : Texto × List (Option ℤ)) :
    Anota (if 1 < (distintas r.2).length then [.conflicto r.1] else []) [] t (regla3Una t r) := by
  unfold regla3Una
  dsimp only
  split
  · exact .of_conflicto (c := ⟨r.1, _, _⟩) rfl (List.filter_subset_self _) (planteadas_sinQty r.1 _) rfl
  · exact .of_eq (l := []) (List.append_nil _).symm (by simp) rfl

theorem foldl_regla3Una_anota (rs : List (Texto × List (Option ℤ))) (t : Trabajo) :
    Anota (((rs.filter fun r => 1 < (distintas r.2).length).map Prod.fst).map .conflicto) [] t
      (rs.foldl regla3Una t) := by
  induction rs generalizing t with
  | nil => exact .of_eq (l := []) (List.append_nil _).symm (by simp) rfl
  | cons r rs ih =>
    have h := (regla3Una_anota t r).trans (ih (regla3Una t r))
    rw [List.filter_cons]
    by_cases hr : 1 < (distintas r.2).length
    · rw [if_pos hr] at h
      rw [if_pos (by simpa using hr)]
      exact h
    · rw [if_neg hr] at h
      rw [if_neg (by simpa using hr)]
      exact h

theorem regla11Lineas_anota (g : ℤ) (codes : List Texto) (t : Trabajo) :
    Anota [] [] t (codes.foldl (regla11Linea g) t) := by
  induction codes generalizing t with
  | nil => exact .of_eq (l := []) (List.append_nil _).symm (by simp) rfl
  | cons code codes ih =>
    have hone : Anota [] [] t (regla11Linea g t code) := by
      unfold regla11Linea
      split
      · exact .of_eq (l := []) (List.append_nil _).symm (by simp) rfl
      · exact .of_eq rfl (by simp [Hecho.duda?]) rfl
    exact hone.trans (ih (regla11Linea g t code))

theorem regla11_anota (t : Trabajo) : Anota [] [] t (regla11 t) := by
  unfold regla11
  split
  · exact .of_eq (l := []) (List.append_nil _).symm (by simp) rfl
  · next g _ =>
    refine (regla11Lineas_anota g t.addedNoQty t).trans ?_
    refine .of_dudas (l := []) (List.append_nil _).symm (by simp) ?_ ?_ (by simp [planteadas])
    · refine filterMap_map_of_eq ?_ _
      intro i
      cases i <;> rfl
    · intro c hc
      obtain ⟨i, hi, hic⟩ := List.mem_map.mp hc
      cases i with
      | conflicto d => exact hic ▸ hi
      | producto p => cases hic
      | siNo v => cases hic
      | revisar texto qty => cases hic

/-- What these rules ask. -/
theorem previo_anota (t : Trabajo) :
    Anota (planteaMedia t ++ (suspendidos t).map .conflicto) [] t t.previo := by
  have hseen : (reglaMedia t).seenAdds = t.seenAdds := (reglaMedia_frame t).1
  have h3 : Anota ((suspendidos t).map .conflicto) [] (reglaMedia t) (regla3 (reglaMedia t)) := by
    rw [suspendidos, ← hseen]
    exact foldl_regla3Una_anota _ _
  have h := ((reglaMedia_anota t).trans h3).trans (regla11_anota _)
  rw [List.append_nil] at h
  exact h

theorem mem_suspendidos {fm : Bool} {e : Estado} {g : Option ℤ} {ops : List Op} {code : Texto} :
    code ∈ suspendidos (tras fm e g ops) ↔ Disputada fm e g ops code := by
  rw [← suspendida_iff, suspendidos]
  constructor
  · intro h
    obtain ⟨r, hr, rfl⟩ := List.mem_map.mp h
    obtain ⟨hr, hd⟩ := List.mem_filter.mp hr
    exact ⟨r, hr, by simpa using hd, rfl⟩
  · rintro ⟨r, hr, hd, rfl⟩
    exact List.mem_map_of_mem (List.mem_filter.mpr ⟨hr, by simpa using hd⟩)

/-- Before rule 7 the questions are still matched when rule 3 repeats none. -/
theorem previo_casada_iff {fm : Bool} {e : Estado} {g : Option ℤ} (hu : Unicos e.openItems)
    (hs : e.siNos.length ≤ 1) (ops : List Op) :
    Casada (tras fm e g ops).previo ↔ Casada (tras fm e g ops) ∧
      ∀ code, Disputada fm e g ops code → .conflicto code ∉ planteos fm (inicio e g) ops := by
  rw [(previo_anota _).casada_iff (tras_unicos hu ops) (tras_una hs ops)]
  simp only [← mem_suspendidos, ← planteadas_tras]
  have hnd : (suspendidos (tras fm e g ops)).Nodup :=
    (tras_seenAdds fm e g ops).1.sublist (List.filter_sublist.map Prod.fst)
  generalize tras fm e g ops = t at hnd ⊢
  have hmedia : ∀ d ∈ planteaMedia t, d = .propuesta .media ∧ t.e.siNos = [] := by
    intro d hd
    unfold planteaMedia at hd
    split at hd
    · cases hd
    · split at hd
      · next h => exact ⟨List.mem_singleton.mp hd, h⟩
      · cases hd
  constructor
  · rintro ⟨hc, -, -, hnew⟩
    refine ⟨hc, fun code hcode => hnew _ ?_⟩
    exact List.mem_append_left _ (List.mem_append_right _ (List.mem_map_of_mem hcode))
  · rintro ⟨hc, hnew⟩
    refine ⟨hc, List.nodup_append.mpr ⟨?_, hnd.map fun _ _ => Duda.conflicto.inj, ?_⟩, ?_, ?_⟩
    · unfold planteaMedia
      split
      · exact List.nodup_nil
      · split
        · exact List.nodup_singleton _
        · exact List.nodup_nil
    · rintro d hd d' hd' rfl
      obtain ⟨code, -, hcode⟩ := List.mem_map.mp hd'
      cases (hmedia d hd).1.symm.trans hcode.symm
    · intro code hcode
      rcases List.mem_append.mp hcode with hcode | hcode
      · cases (hmedia _ hcode).1
      · obtain ⟨c, -, hc'⟩ := List.mem_map.mp hcode
        cases hc'
    · intro d hd
      rw [List.append_nil] at hd
      rcases List.mem_append.mp hd with hd | hd
      · -- a media proposal asked before would be open, and then no other is made
        obtain ⟨rfl, hnil⟩ := hmedia d hd
        intro hasked
        obtain ⟨i, hi, hid⟩ := mem_dudas.mp (hc.abiertas _ hasked)
        obtain ⟨v, rfl, -⟩ := duda_siNo (v := { tipo := .media }) hid
        have hv : v ∈ t.e.siNos := List.mem_filterMap.mpr ⟨_, hi, rfl⟩
        rw [hnil] at hv
        cases hv
      · obtain ⟨code, hcode, rfl⟩ := List.mem_map.mp hd
        exact hnew code hcode

/-! ## Rule 7 -/

/-- The fact keeps rule 7 from repeating a proposal. -/
def Hecho.dice (tipo : TipoSiNo) : Hecho → Bool
  | .propuesta t _ _ => t = tipo
  | .preguntaBaja .. => true
  | .cerrado .. => true
  | _ => false

/-- Rule 7 asks nothing about the item. -/
def Item.callado (huboProgreso : Bool) (ya : List Hecho) : Item → Bool
  | .producto p => maxIntentosProducto ≤ intentosTras huboProgreso p || ya.any (Hecho.trata p.texto)
  | .conflicto c => ya.any (Hecho.trataConflicto c.code)
  | .siNo v => ya.any (Hecho.dice v.tipo)
  | .revisar .. => true

/-- The item is a product that is asked no more. -/
def Item.agota (huboProgreso : Bool) : Item → Bool
  | .producto p => maxIntentosProducto ≤ intentosTras huboProgreso p
  | _ => false

section Rule7

variable (hubo : Bool) (ya : List Hecho)

/-- What rule 7 adds to the facts for one item. -/
theorem regla7Item_duda (hs : List Hecho) (i : Item)
    (hi : ∀ v, i = .siNo v → hs.any (Hecho.dice v.tipo) = ya.any (Hecho.dice v.tipo)) :
    ∃ l, (regla7Item hubo ya hs i).2 = hs ++ l ∧
      planteadas l = (if i.callado hubo ya then [] else i.duda?.toList) ∧
      (∀ k ∈ l, ∀ code name ops, k = .conflictoCantidad code name ops →
        ∃ c, i = .conflicto c ∧ c.code = code ∧ ops = c.opcionesQty) ∧
      ((∀ v, i ≠ .siNo v) → ∀ k ∈ l, ∀ tipo, k.dice tipo = false) := by
  cases i with
  | producto p =>
    simp only [regla7Item, Item.callado]
    split
    · next h => exact ⟨_, rfl, by simp [h, planteadas, Hecho.duda?], by simp, by simp [Hecho.dice]⟩
    · next h =>
      split
      · next h' => exact ⟨[], by simp, by simp [h', planteadas], by simp, by simp⟩
      · next h' =>
        split
        · exact ⟨_, rfl, by simp [h, h', planteadas, Hecho.duda?, Item.duda?], by simp,
            by simp [Hecho.dice]⟩
        · exact ⟨_, rfl, by simp [h, h', planteadas, Hecho.duda?, Item.duda?], by simp,
            by simp [Hecho.dice]⟩
  | conflicto c =>
    simp only [regla7Item, Item.callado]
    split
    · next h => exact ⟨[], by simp, by simp [h, planteadas], by simp, by simp⟩
    · next h =>
      refine ⟨_, rfl, by simp [h, planteadas, Hecho.duda?, Item.duda?], ?_, by simp [Hecho.dice]⟩
      intro k hk code name ops heq
      obtain rfl := List.mem_singleton.mp hk
      obtain ⟨rfl, -, rfl⟩ := Hecho.conflictoCantidad.inj heq
      exact ⟨c, rfl, rfl, rfl⟩
  | siNo v =>
    have hdice := hi v rfl
    simp only [regla7Item, Item.callado, ← hdice]
    split
    · next h =>
      have h' : hs.any (Hecho.dice v.tipo) = true := h
      exact ⟨[], by simp, by simp [h', planteadas], by simp, by simp⟩
    · next h =>
      have h' : ¬ hs.any (Hecho.dice v.tipo) = true := h
      rw [if_neg h']
      split
      · next hb =>
        refine ⟨_, rfl, by simp [hb, planteadas, Hecho.duda?, Item.duda?, Propuesta.duda], by simp, ?_⟩
        exact fun hne => absurd rfl (hne v)
      · next hb =>
        refine ⟨_, rfl, by simp [hb, planteadas, Hecho.duda?, Item.duda?, Propuesta.duda], by simp, ?_⟩
        exact fun hne => absurd rfl (hne v)
  | revisar texto qty =>
    exact ⟨[], by simp [regla7Item], by simp [Item.callado, planteadas], by simp, by simp⟩

/-- Rule 7 asks about the items it does not pass over. -/
theorem regla7Items_dudas (items : List Item) (hs : List Hecho)
    (hv : (items.filterMap Item.siNo?).length ≤ 1)
    (hdice : ∀ v, Item.siNo v ∈ items →
      hs.any (Hecho.dice v.tipo) = ya.any (Hecho.dice v.tipo)) :
    ∃ l, (regla7Items hubo ya hs items).2 = hs ++ l ∧
      planteadas l = dudas (items.filter fun i => !i.callado hubo ya) ∧
      ∀ code name ops, Hecho.conflictoCantidad code name ops ∈ l →
        ∃ c, Item.conflicto c ∈ items ∧ c.code = code ∧ ops = c.opcionesQty := by
  induction items generalizing hs with
  | nil => exact ⟨[], by simp [regla7Items], rfl, by simp⟩
  | cons i items ih =>
    obtain ⟨l, hl, hask, hcon, hsay⟩ := regla7Item_duda hubo ya hs i fun v hiv =>
      hdice v (hiv ▸ List.mem_cons_self)
    -- a fact for the proposal is the last that rule 7 can add about one
    have hdice' : ∀ v, Item.siNo v ∈ items →
        (hs ++ l).any (Hecho.dice v.tipo) = ya.any (Hecho.dice v.tipo) := by
      intro v hmem
      have hne : ∀ w, i ≠ .siNo w := by
        rintro w rfl
        have hpos : 0 < (items.filterMap Item.siNo?).length :=
          List.length_pos_of_mem (List.mem_filterMap.mpr ⟨_, hmem, rfl⟩)
        rw [List.filterMap_cons_some (rfl : (Item.siNo w).siNo? = some w), List.length_cons] at hv
        omega
      have hnone : l.any (Hecho.dice v.tipo) = false :=
        List.any_eq_false.mpr fun k hk => by simp [hsay hne k hk v.tipo]
      rw [List.any_append, hnone, Bool.or_false]
      exact hdice v (List.mem_cons_of_mem i hmem)
    have hv' : (items.filterMap Item.siNo?).length ≤ 1 :=
      ((List.sublist_cons_self i items).filterMap Item.siNo?).length_le.trans hv
    obtain ⟨l', hl', hask', hcon'⟩ := ih (hs ++ l) hv' hdice'
    refine ⟨l ++ l', ?_, ?_, ?_⟩
    · rw [regla7Items, hl, hl', List.append_assoc]
    · rw [planteadas_append, hask, hask', List.filter_cons]
      cases i.callado hubo ya with
      | true => rfl
      | false =>
        cases hd : i.duda? with
        | none => simp [dudas, hd]
        | some d => simp [dudas, hd]
    · intro code name ops hmem
      rcases List.mem_append.mp hmem with hmem | hmem
      · obtain ⟨c, rfl, hc⟩ := hcon _ hmem code name ops rfl
        exact ⟨c, List.mem_cons_self, hc⟩
      · obtain ⟨c, hc, hc'⟩ := hcon' code name ops hmem
        exact ⟨c, List.mem_cons_of_mem i hc, hc'⟩

end Rule7

/-- What is a doubt after the exhausted products left. -/
theorem mem_dudas_agotados {is : List Item} (hu : Unicos is) {d : Duda} :
    d ∈ dudas (agotados is) ↔
      ∃ i ∈ is, i.duda? = some d ∧ ∀ p, i = .producto p → p.revisar = false := by
  rw [mem_dudas]
  constructor
  · rintro ⟨i, hi, hd⟩
    rcases mem_revisa hi with hmem | ⟨p, -, rfl⟩
    · refine ⟨i, hmem, hd, ?_⟩
      rintro p rfl
      exact (mem_agotados hu hi).2
    · cases hd
  · rintro ⟨i, hi, hd, hrev⟩
    rcases mem_revisa_of_mem ((is.filterMap Item.producto?).filter Producto.revisar) hi with
      hmem | ⟨p, hp, rfl, -⟩
    · exact ⟨i, hmem, hd⟩
    · have htrue := (List.mem_filter.mp hp).2
      rw [hrev p rfl] at htrue
      cases htrue

/-- What is a doubt after the turn: what was one before rule 7, less the exhausted products. -/
theorem mem_dudas_pase2 {t : Trabajo} (hu : Unicos t.previo.e.openItems)
    (hr : SinRevisar t.previo.e.openItems) {d : Duda} :
    d ∈ dudas (pase2 t).e.openItems ↔ ∃ i ∈ t.previo.e.openItems, i.duda? = some d ∧
      i.agota (t.previo.hechos.any Hecho.progreso) = false := by
  have hfinal : (pase2 t).e.openItems = (agotados (t.previo.e.openItems.map
      (Item.contado (t.previo.hechos.any Hecho.progreso)))).map Item.sinMarca := by
    rw [← regla7Items_fst]
    rfl
  generalize t.previo.hechos.any Hecho.progreso = hubo at hfinal ⊢
  generalize t.previo.e.openItems = is at hu hr hfinal ⊢
  have hu7 : Unicos (is.map (Item.contado hubo)) := by
    apply hu.map
    · intro i
      cases i <;> rfl
    · intro i
      cases i <;> rfl
  have hmarca : dudas ((agotados (is.map (Item.contado hubo))).map Item.sinMarca) =
      dudas (agotados (is.map (Item.contado hubo))) := by
    refine filterMap_map_of_eq ?_ _
    intro i
    cases i <;> rfl
  have hduda (i : Item) : (i.contado hubo).duda? = i.duda? := by cases i <;> rfl
  rw [hfinal, hmarca, mem_dudas_agotados hu7]
  have hrev (i : Item) (hi : i ∈ is) : (∀ p, i.contado hubo = .producto p → p.revisar = false) ↔
      i.agota hubo = false := by
    cases i with
    | producto p => simp [Item.contado, Item.agota, hr p hi]
    | conflicto c => simp [Item.contado, Item.agota]
    | siNo v => simp [Item.contado, Item.agota]
    | revisar texto qty => simp [Item.contado, Item.agota]
  constructor
  · rintro ⟨j, hj, hd, hj'⟩
    obtain ⟨i, hi, rfl⟩ := List.mem_map.mp hj
    exact ⟨i, hi, (hduda i).symm.trans hd, (hrev i hi).mp hj'⟩
  · rintro ⟨i, hi, hd, hag⟩
    exact ⟨_, List.mem_map_of_mem hi, (hduda i).trans hd, (hrev i hi).mpr hag⟩

/-- Two open items are not about the same doubt. -/
theorem eq_of_duda {is : List Item} (hn : (dudas is).Nodup) {i j : Item} {d : Duda} (hi : i ∈ is)
    (hj : j ∈ is) (hid : i.duda? = some d) (hjd : j.duda? = some d) : i = j := by
  have hp : is.Pairwise fun a b => ∀ d, a.duda? = some d → b.duda? ≠ some d :=
    (List.pairwise_filterMap.mp hn).imp fun h d ha hb => h d ha d hb rfl
  have : Std.Symm fun a b : Item => ∀ d, a.duda? = some d → b.duda? ≠ some d :=
    ⟨fun a b h d hb ha => h d ha hb⟩
  by_contra hne
  exact hp.forall hi hj hne d hid hjd

/-! ## A proposal after the order closed -/

/-- Once the order closed in the turn, every open proposal was asked about in it. -/
def CierreDicho (t : Trabajo) : Prop :=
  (∃ cart rs, Hecho.cerrado cart rs ∈ t.hechos) →
    ∀ v, Item.siNo v ∈ t.e.openItems → v.duda ∈ planteadas t.hechos

/-- With one proposal at most, two open proposals are one. -/
theorem siNo_unica {e : Estado} (hs : e.siNos.length ≤ 1) {v w : Propuesta}
    (hv : Item.siNo v ∈ e.openItems) (hw : Item.siNo w ∈ e.openItems) : v = w := by
  have hv' : v ∈ e.siNos := List.mem_filterMap.mpr ⟨_, hv, rfl⟩
  have hw' : w ∈ e.siNos := List.mem_filterMap.mpr ⟨_, hw, rfl⟩
  cases h : e.siNos with
  | nil => simp [h] at hv'
  | cons x xs =>
    obtain rfl : xs = [] := by simpa [h] using hs
    rw [h, List.mem_singleton] at hv' hw'
    rw [hv', hw']

theorem duda_propuesta {i : Item} {tipo : TipoSiNo} (h : i.duda? = some (.propuesta tipo)) :
    tipo ≠ .baja := by
  cases i with
  | producto p => cases h
  | conflicto c => cases h
  | siNo v =>
    have hv : v.duda = .propuesta tipo := Option.some.inj h
    unfold Propuesta.duda at hv
    split at hv
    · cases hv
    · next hne => exact Duda.propuesta.inj hv ▸ hne
  | revisar t qty => cases h

theorem Anota.cierreDicho {A B : List Duda} {t t' : Trabajo} (h : Anota A B t t')
    (hold : (∃ cart rs, Hecho.cerrado cart rs ∈ t'.hechos) →
      ∃ cart rs, Hecho.cerrado cart rs ∈ t.hechos) (ht : CierreDicho t) : CierreDicho t' := by
  intro hc v hv
  rw [h.plantea]
  rcases h.entra v.duda (mem_dudas.mpr ⟨_, hv, rfl⟩) with hd | hd
  · obtain ⟨i, hi, hid⟩ := mem_dudas.mp hd
    obtain ⟨w, rfl, hw⟩ := duda_siNo hid
    exact List.mem_append_left A (hw ▸ ht (hold hc) w hi)
  · exact List.mem_append_right _ hd

theorem tras_cierreDicho {fm : Bool} {e : Estado} {g : Option ℤ} (hu : Unicos e.openItems)
    (hs : e.siNos.length ≤ 1) (ops : List Op) : CierreDicho (tras fm e g ops) := by
  induction ops using List.reverseRecOn with
  | nil =>
    rintro ⟨cart, rs, h⟩
    cases h
  | append_singleton ops op ih =>
    have hu' := @tras_unicos fm _ g hu ops
    have hs' := @tras_una fm _ g hs ops
    rw [tras_concat]
    generalize tras fm e g ops = t at ih hu' hs' ⊢
    by_cases hold : ∃ cart rs, Hecho.cerrado cart rs ∈ t.hechos
    · exact (paso_anota fm t op).cierreDicho (fun _ => hold) ih
    · rintro ⟨cart, rs, hc⟩ v hv
      rcases paso_cerrado_mem fm t op cart rs hc with hc | ⟨rfl, hcierra, -⟩
      · exact absurd ⟨cart, rs, hc⟩ hold
      · -- the closing took the only proposal away
        obtain ⟨w, hw, hwt⟩ := hcierra
        have h := paso_anota fm t .confirmar
        have hA : plantea fm t .confirmar = [] := by simp only [plantea, hw, hwt]
        have hd : v.duda ∈ dudas (paso fm t .confirmar).e.openItems := mem_dudas.mpr ⟨_, hv, rfl⟩
        have hB : v.duda ∈ zanja t.e .confirmar := by
          rcases h.entra _ hd with hd' | hd'
          · obtain ⟨i, hi, hid⟩ := mem_dudas.mp hd'
            obtain ⟨w', rfl, hw'⟩ := duda_siNo hid
            obtain rfl := siNo_unica hs' hi (siNoVivo_mem hw)
            simp only [zanja, hw]
            exact hw' ▸ List.mem_cons_self
          · rw [hA] at hd'
            cases hd'
        have hin := h.sale hu' hs' _ hB hd
        rw [hA] at hin
        cases hin

theorem previo_cierreDicho {t : Trabajo} (ht : CierreDicho t) : CierreDicho t.previo := by
  refine (previo_anota t).cierreDicho ?_ ht
  rintro ⟨cart, rs, hc⟩
  refine ⟨cart, rs, (pase2_cerrado t cart rs).mp ?_⟩
  exact (limpia_regla7_quieto _).sinCierre.mem_iff cart rs |>.mpr hc

/-! ## What rule 7 leaves -/

theorem trata_iff {h : Hecho} (hr : h.recuerda = false) (texto : Texto) :
    h.trata texto ↔ texto ≠ [] ∧ h.duda? = some (.producto texto) := by
  have hkey (x : Texto) : (!x.isEmpty && decide (x = texto)) = true ↔
      texto ≠ [] ∧ some (Duda.producto x) = some (.producto texto) := by
    rw [Bool.and_eq_true, decide_eq_true_eq, Option.some.injEq, Duda.producto.injEq]
    constructor
    · rintro ⟨hx, rfl⟩
      exact ⟨by simpa using hx, rfl⟩
    · rintro ⟨hx, rfl⟩
      exact ⟨by simpa using hx, rfl⟩
  cases h with
  | recordatorioPendiente x => cases hr
  | preguntaOpciones x q os b => exact hkey x
  | sinCandidatos x => exact hkey x
  | rechazoRegistrado x => exact hkey x
  | _ => simp [Hecho.trata, Hecho.duda?]

theorem trataConflicto_iff (h : Hecho) (code : Texto) :
    h.trataConflicto code ↔ h.duda? = some (.conflicto code) := by
  cases h <;> simp [Hecho.trataConflicto, Hecho.duda?]

/-- The fact that asks about a proposal says its kind. -/
theorem dice_of_duda {h : Hecho} {v : Propuesta} (hd : h.duda? = some v.duda) :
    h.dice v.tipo := by
  unfold Propuesta.duda at hd
  split at hd
  · cases h <;> simp_all [Hecho.duda?, Hecho.dice]
  · cases h <;> simp_all [Hecho.duda?, Hecho.dice]

section Match

variable {t : Trabajo}

/-- Rule 7 passes over an item with attempts left exactly when its question was asked, but it does
not see the questions about an empty text. -/
theorem callado_iff (hs : t.e.siNos.length ≤ 1) (hr : ∀ h ∈ t.hechos, h.recuerda = false)
    (hc : Casada t) (hcd : CierreDicho t) {hubo : Bool} {i : Item} (hi : i ∈ t.e.openItems)
    {d : Duda} (hd : i.duda? = some d) (hag : i.agota hubo = false) :
    i.callado hubo t.hechos ↔ d ∈ planteadas t.hechos ∧ ∀ p, i = .producto p → p.texto ≠ [] := by
  rw [mem_planteadas]
  cases i with
  | producto p =>
    obtain rfl := Option.some.inj hd
    have hmax : decide (maxIntentosProducto ≤ intentosTras hubo p) = false := hag
    rw [Item.callado, hmax, Bool.false_or, List.any_eq_true]
    constructor
    · rintro ⟨h, hh, htr⟩
      obtain ⟨hne, hdh⟩ := (trata_iff (hr h hh) p.texto).mp htr
      exact ⟨⟨h, hh, hdh⟩, fun q hq => Item.producto.inj hq ▸ hne⟩
    · rintro ⟨⟨h, hh, hdh⟩, hne⟩
      exact ⟨h, hh, (trata_iff (hr h hh) p.texto).mpr ⟨hne p rfl, hdh⟩⟩
  | conflicto c =>
    obtain rfl := Option.some.inj hd
    rw [Item.callado, List.any_eq_true]
    simp only [trataConflicto_iff]
    exact ⟨fun h => ⟨h, nofun⟩, fun h => h.1⟩
  | siNo v =>
    obtain rfl := Option.some.inj hd
    rw [Item.callado, List.any_eq_true]
    constructor
    · rintro ⟨h, hh, hdice⟩
      refine ⟨?_, nofun⟩
      rw [← mem_planteadas]
      cases h with
      | propuesta tipo items titulo =>
        have htipo : tipo = v.tipo := by simpa [Hecho.dice] using hdice
        have hask : Duda.propuesta v.tipo ∈ planteadas t.hechos :=
          mem_planteadas.mpr ⟨_, hh, by rw [Hecho.duda?, htipo]⟩
        by_cases hb : v.tipo = .baja
        · obtain ⟨j, -, hjd⟩ := mem_dudas.mp (hc.abiertas _ hask)
          exact absurd hb (duda_propuesta hjd)
        · rw [Propuesta.duda, if_neg hb]
          exact hask
      | preguntaBaja code name =>
        have hask : Duda.baja code ∈ planteadas t.hechos := mem_planteadas.mpr ⟨_, hh, rfl⟩
        obtain ⟨j, hj, hjd⟩ := mem_dudas.mp (hc.abiertas _ hask)
        obtain ⟨w, rfl, hw⟩ := duda_siNo (v := { tipo := .baja, code := code }) hjd
        obtain rfl := siNo_unica hs hi hj
        exact hw ▸ hask
      | cerrado cart rs => exact hcd ⟨cart, rs, hh⟩ v hi
      | _ => cases hdice
    · rintro ⟨⟨h, hh, hdh⟩, -⟩
      exact ⟨h, hh, dice_of_duda hdh⟩
  | revisar texto qty => cases hd

end Match

/-- What rule 7 asks after the rules before it. -/
theorem pase2_preguntas {t : Trabajo} (hs : t.previo.e.siNos.length ≤ 1) :
    ∃ l, (pase2 t).hechos = t.previo.hechos ++ l ∧
      planteadas l = dudas (t.previo.e.openItems.filter fun i =>
        !i.callado (t.previo.hechos.any Hecho.progreso) t.previo.hechos) ∧
      ∀ code name ops, Hecho.conflictoCantidad code name ops ∈ l →
        ∃ c, Item.conflicto c ∈ t.previo.e.openItems ∧ c.code = code ∧ ops = c.opcionesQty :=
  regla7Items_dudas _ _ t.previo.e.openItems t.previo.hechos hs fun _ _ => rfl

/-- After the turn doubts and questions match exactly when they did before rule 7 and no product
asked about is without words or exhausted. -/
theorem pase2_casa_iff {t : Trabajo} (hu : Unicos t.previo.e.openItems)
    (hr : SinRevisar t.previo.e.openItems) (hs : t.previo.e.siNos.length ≤ 1)
    (hrec : ∀ h ∈ t.previo.hechos, h.recuerda = false) (hcd : CierreDicho t.previo) :
    ((∀ d ∈ dudas (pase2 t).e.openItems, (planteadas (pase2 t).hechos).count d = 1) ∧
      ∀ d ∈ planteadas (pase2 t).hechos, d ∈ dudas (pase2 t).e.openItems) ↔
    Casada t.previo ∧ ∀ p, Item.producto p ∈ t.previo.e.openItems →
      .producto p.texto ∈ planteadas t.previo.hechos → p.texto ≠ [] ∧
        intentosTras (t.previo.hechos.any Hecho.progreso) p < maxIntentosProducto := by
  obtain ⟨l, hl, hask, -⟩ := pase2_preguntas hs
  have hmem {d : Duda} := mem_dudas_pase2 hu hr (d := d)
  have hn := nodup_dudas hu hs
  rw [hl, planteadas_append, hask]
  generalize hubodef : t.previo.hechos.any Hecho.progreso = hubo at hmem ⊢
  generalize hudef : t.previo = u at hu hr hs hrec hcd hmem hn ⊢
  constructor
  · rintro ⟨huna, habierta⟩
    have hcas : Casada u := by
      refine ⟨List.nodup_iff_count_le_one.mpr fun d => ?_, fun d hd => ?_⟩
      · by_cases hd : d ∈ planteadas u.hechos
        · have hone := huna d (habierta d (List.mem_append_left _ hd))
          rw [List.count_append] at hone
          omega
        · rw [List.count_eq_zero_of_not_mem hd]
          exact Nat.zero_le 1
      · obtain ⟨i, hi, hid, -⟩ := hmem.mp (habierta d (List.mem_append_left _ hd))
        exact mem_dudas.mpr ⟨i, hi, hid⟩
    refine ⟨hcas, fun p hp hd => ?_⟩
    have hopen := habierta _ (List.mem_append_left _ hd)
    obtain ⟨i, hi, hid, hag⟩ := hmem.mp hopen
    obtain rfl := eq_of_duda hn hi hp hid rfl
    refine ⟨fun hnil => ?_, by simpa [Item.agota] using hag⟩
    -- the question about the empty text is asked again
    have hagain : Duda.producto p.texto ∈ dudas (u.e.openItems.filter fun i =>
        !i.callado hubo u.hechos) := by
      refine mem_dudas.mpr ⟨_, List.mem_filter.mpr ⟨hp, ?_⟩, rfl⟩
      rw [Bool.not_eq_true', ← Bool.not_eq_true, callado_iff hs hrec hcas hcd hp rfl hag]
      exact fun h => h.2 p rfl hnil
    have hone := huna _ hopen
    have h1 := List.count_pos_iff.mpr hd
    have h2 := List.count_pos_iff.mpr hagain
    rw [List.count_append] at hone
    omega
  · rintro ⟨hcas, hviv⟩
    have hlive {i : Item} (hi : i ∈ u.e.openItems) {d : Duda} (hid : i.duda? = some d)
        (hd : d ∈ planteadas u.hechos) :
        i.agota hubo = false ∧ ∀ p, i = .producto p → p.texto ≠ [] := by
      cases i with
      | producto p =>
        obtain rfl := Option.some.inj hid
        obtain ⟨hne, hlt⟩ := hviv p hi hd
        exact ⟨by simpa [Item.agota] using hlt, fun q hq => Item.producto.inj hq ▸ hne⟩
      | conflicto c => exact ⟨rfl, nofun⟩
      | siNo v => exact ⟨rfl, nofun⟩
      | revisar texto qty => cases hid
    constructor
    · intro d hd
      obtain ⟨i, hi, hid, hag⟩ := hmem.mp hd
      have hcall := @callado_iff _ hs hrec hcas hcd hubo _ hi _ hid hag
      have hsub : (dudas (u.e.openItems.filter fun i => !i.callado hubo u.hechos)).Nodup :=
        hn.sublist (List.filter_sublist.filterMap Item.duda?)
      rw [List.count_append]
      by_cases hasked : d ∈ planteadas u.hechos
      · have hquiet : d ∉ dudas (u.e.openItems.filter fun i => !i.callado hubo u.hechos) := by
          intro hin
          obtain ⟨j, hj, hjd⟩ := mem_dudas.mp hin
          obtain ⟨hj, hjc⟩ := List.mem_filter.mp hj
          obtain rfl := eq_of_duda hn hi hj hid hjd
          rw [hcall.mpr ⟨hasked, (hlive hi hid hasked).2⟩] at hjc
          cases hjc
        rw [List.count_eq_one_of_mem hcas.unas hasked, List.count_eq_zero_of_not_mem hquiet]
      · have hloud : d ∈ dudas (u.e.openItems.filter fun i => !i.callado hubo u.hechos) := by
          refine mem_dudas.mpr ⟨i, List.mem_filter.mpr ⟨hi, ?_⟩, hid⟩
          rw [Bool.not_eq_true', ← Bool.not_eq_true, hcall]
          exact fun h => hasked h.1
        rw [List.count_eq_zero_of_not_mem hasked, List.count_eq_one_of_mem hsub hloud]
    · intro d hd
      rcases List.mem_append.mp hd with hd | hd
      · obtain ⟨i, hi, hid⟩ := mem_dudas.mp (hcas.abiertas d hd)
        exact hmem.mpr ⟨i, hi, hid, (hlive hi hid hd).1⟩
      · obtain ⟨i, hi, hid⟩ := mem_dudas.mp hd
        obtain ⟨hi, hcall⟩ := List.mem_filter.mp hi
        refine hmem.mpr ⟨i, hi, hid, ?_⟩
        cases i with
        | producto p =>
          rw [Item.callado, Bool.not_or, Bool.and_eq_true] at hcall
          simpa [Item.agota] using hcall.1
        | conflicto c => rfl
        | siNo v => rfl
        | revisar texto qty => rfl

/-! ## The match -/

/-- The turn asks nothing twice and nothing that it settles: every operation is new, rule 3 suspends
no line asked about before, and a product asked about has words and attempts left. -/
structure SinRepetir (fm : Bool) (e : Estado) (g : Option ℤ) (ops : List Op) : Prop where
  nuevas : ∀ xs op ys, ops = xs ++ op :: ys →
    op.Nueva fm (tras fm e g xs) (planteos fm (inicio e g) xs)
  disputas : ∀ code, Disputada fm e g ops code → .conflicto code ∉ planteos fm (inicio e g) ops
  vivos : ∀ p, Item.producto p ∈ (tras fm e g ops).previo.e.openItems →
    .producto p.texto ∈ planteos fm (inicio e g) ops → p.texto ≠ [] ∧
      intentosTras ((tras fm e g ops).previo.hechos.any Hecho.progreso) p < maxIntentosProducto

section Turn

variable {fm : Bool} {e : Estado} {g : Option ℤ} {ops : List Op}

/-- The fact of a turn without facts asks nothing. -/
theorem aplicar_preguntas : ∃ l, (aplicar e ops fm g).hechos = (pase2 (tras fm e g ops)).hechos ++ l ∧
    planteadas l = [] := by
  unfold aplicar
  dsimp only
  split
  · exact ⟨[.sinEntender], rfl, rfl⟩
  · exact ⟨[], (List.append_nil _).symm, rfl⟩

/-- The rules before rule 7 edit the open items, and then rule 11 fills quantities in. -/
theorem previo_retocado :
    Retocado (fun _ => True) e.openItems (regla3 (reglaMedia (tras fm e g ops))).e.openItems := by
  have h := tras_retocado (t := { estado := e, fuenteMedia := fm, cantidadGlobal := g }) ops
  exact (Relation.ReflTransGen.trans h (reglaMedia_retocado _ _)).trans
    (regla3_retocado _ fun _ _ _ _ => trivial)

theorem previo_unicos (hu : Unicos e.openItems) : Unicos (tras fm e g ops).previo.e.openItems :=
  regla11_unicos (Retocado.unicos previo_retocado hu)

theorem previo_sinRevisar (hr : SinRevisar e.openItems) :
    SinRevisar (tras fm e g ops).previo.e.openItems :=
  regla11_sinRevisar (Retocado.sinRevisar previo_retocado hr)

theorem previo_siNos (hs : e.siNos.length ≤ 1) :
    (tras fm e g ops).previo.e.siNos.length ≤ 1 := by
  have h := @tras_una fm _ g hs ops
  rw [Trabajo.previo, regla11_siNos, regla3_siNos, reglaMedia_siNos]
  split
  · split <;> simp
  · exact h

/-- Media and rule 3 ask about no product. -/
theorem producto_planteado (texto : Texto) :
    .producto texto ∈ planteadas (tras fm e g ops).previo.hechos ↔
      .producto texto ∈ planteos fm (inicio e g) ops := by
  rw [(previo_anota _).plantea, planteadas_tras, List.mem_append, List.mem_append]
  constructor
  · rintro (h | h | h)
    · exact h
    · unfold planteaMedia at h
      split at h
      · cases h
      · split at h
        · cases List.mem_singleton.mp h
        · cases h
    · obtain ⟨code, -, hcode⟩ := List.mem_map.mp h
      cases hcode
  · exact Or.inl

/-- The questions about the quantities have the options of the open conflicts. -/
theorem pase2_propias {t : Trabajo} (hu : Unicos t.previo.e.openItems)
    (hs : t.previo.e.siNos.length ≤ 1) (hp : Propias t.previo.e.openItems t.previo.hechos) :
    Propias (pase2 t).e.openItems (pase2 t).hechos := by
  obtain ⟨l, hl, -, hcon⟩ := pase2_preguntas hs
  intro c hc name ops hfact
  have hsigue : Prosigue none t.previo.e.openItems (pase2 t).e.openItems :=
    (regla7_prosigue none t.previo).trans (limpia_prosigue none _)
  obtain ⟨i, hi, hic⟩ := hsigue.de _ hc
  cases hic
  rw [hl] at hfact
  rcases List.mem_append.mp hfact with hfact | hfact
  · exact hp c hi name ops hfact
  · obtain ⟨d, hd, hcode, rfl⟩ := hcon _ _ _ hfact
    have heq := eq_of_duda (nodup_dudas hu hs) hd hi rfl
      (congrArg (fun code => some (Duda.conflicto code)) hcode.symm)
    rw [Item.conflicto.inj heq]

/-- Doubts and questions match after a turn exactly when the turn repeats none of its questions and
settles none of them. A session hands over only states with the hypotheses (`turno_unicos`). -/
theorem correspondidas_iff (hu : Unicos e.openItems) (hr : SinRevisar e.openItems)
    (hs : e.siNos.length ≤ 1) :
    Correspondidas (aplicar e ops fm g).estado (aplicar e ops fm g).hechos ↔
      SinRepetir fm e g ops := by
  obtain ⟨l, hl, hnil⟩ := @aplicar_preguntas fm e g ops
  have hu' := @previo_unicos fm _ g ops hu
  have hs' := @previo_siNos fm _ g ops hs
  have hask : planteadas (aplicar e ops fm g).hechos = planteadas (pase2 (tras fm e g ops)).hechos := by
    rw [hl, planteadas_append, hnil, List.append_nil]
  have hcasa := pase2_casa_iff hu' (previo_sinRevisar hr) hs'
    ((previo_anota _).recuerdos (tras_recuerdos ops)) (previo_cierreDicho (tras_cierreDicho hu hs ops))
  simp only [producto_planteado] at hcasa
  rw [previo_casada_iff hu hs, tras_casada_iff hu hs] at hcasa
  constructor
  · rintro ⟨huna, habierta, -⟩
    rw [hask, aplicar_estado] at huna habierta
    obtain ⟨⟨hnew, hdis⟩, hviv⟩ := hcasa.mp ⟨huna, habierta⟩
    exact ⟨hnew, hdis, hviv⟩
  · intro h
    obtain ⟨huna, habierta⟩ := hcasa.mpr ⟨⟨h.nuevas, h.disputas⟩, h.vivos⟩
    have hcas := (previo_casada_iff hu hs ops).mpr ⟨(tras_casada_iff hu hs ops).mpr h.nuevas, h.disputas⟩
    obtain ⟨-, hnd, -, hnew⟩ := ((previo_anota _).casada_iff (tras_unicos hu ops) (tras_una hs ops)).mp hcas
    have hprop := (previo_anota _).propias hnd (fun d hd => hnew d (List.mem_append_left _ hd))
      (tras_propias ops h.nuevas)
    refine ⟨?_, ?_, ?_⟩
    · rw [hask, aplicar_estado]
      exact huna
    · rw [hask, aplicar_estado]
      exact habierta
    · rw [aplicar_estado]
      intro c hc name ops' hfact
      rw [hl] at hfact
      rcases List.mem_append.mp hfact with hfact | hfact
      · exact pase2_propias hu' hs' hprop c hc name ops' hfact
      · have hin : Duda.conflicto c.code ∈ planteadas l := mem_planteadas.mpr ⟨_, hfact, rfl⟩
        rw [hnil] at hin
        cases hin

end Turn

/-- A serum waits for its answer. -/
def serumPendiente : Estado :=
  { openItems := [.producto
      { texto := "serum noche", qty := none, opciones := [⟨"S1", "SERUM A", [], [], [], []⟩] }] }

/-- The client closes the order: the summary is proposed, and the serum is asked about once more. -/
theorem closing_repeats_nothing : SinRepetir false serumPendiente none [.cerrar] := by
  refine (correspondidas_iff ⟨by decide, by decide⟩ ?_ (by decide)).mp
    ⟨by decide, by decide, ?_⟩
  · intro p hp
    obtain rfl := Item.producto.inj (List.mem_singleton.mp hp)
    rfl
  · intro c hc
    have hnone : (aplicar serumPendiente [.cerrar] false none).estado.openItems.filterMap
        Item.conflicto? = [] := by decide
    have hmem := List.mem_filterMap.mpr ⟨_, hc, (rfl : (Item.conflicto c).conflicto? = some c)⟩
    rw [hnone] at hmem
    cases hmem

/-- Two lipsticks and then three in one message: the question of the second operation and the one
of rule 3 stand in one reply. -/
theorem lipstick_asked_twice :
    ¬ Correspondidas
      (aplicar {} [.add "KJ401" "LABIAL ROJO" [] (some 2) "pedidos",
        .add "KJ401" "LABIAL ROJO" [] (some 3) "pedidos"] false none).estado
      (aplicar {} [.add "KJ401" "LABIAL ROJO" [] (some 2) "pedidos",
        .add "KJ401" "LABIAL ROJO" [] (some 3) "pedidos"] false none).hechos := by
  intro h
  have huna := h.una (.conflicto "KJ401")
  revert huna
  decide

end Chatlink.Agent
