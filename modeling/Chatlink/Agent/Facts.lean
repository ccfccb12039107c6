import Chatlink.Agent.CartWrites

/-!
# The facts and the cart

The reply is rendered from the facts. The last fact about a code always agrees with
the resulting cart: every write emits its own fact and rule 3 retracts what it makes
untrue. The snapshot of a `cerrado` fact is taken in the middle of the list, so it
agrees with the resulting cart as long as nothing writes a line after the close.
-/
namespace Chatlink.Agent

open Lists

variable {fm : Bool} {e : Estado} {g : Option ℤ} {ops : List Op}

/-- What a fact says of the line of `code`: a quantity, or that it is gone. -/
def Hecho.sobre (code : Texto) : Hecho → Option (Option ℤ)
  | .confirmado c _ q _ _ => if c = code then some (some q) else none
  | .actualizado c _ q => if c = code then some (some q) else none
  | .sinCambioConfirmado c _ q => if c = code then some (some q) else none
  | .eliminado c _ => if c = code then some none else none
  | _ => none

/-- The last word of a list of facts on `code`. -/
def ultimo (hs : List Hecho) (code : Texto) : Option (Option ℤ) :=
  (hs.filterMap (Hecho.sobre code)).getLast?

/-- The last fact about each code says what the cart holds. -/
def Acorde (e : Estado) (hs : List Hecho) : Prop :=
  ∀ code r, ultimo hs code = some r → (e.linea code).map Linea.qty = r

theorem Hecho.sobre_neutral {h : Hecho} (hn : h.neutral) (code : Texto) : h.sobre code = none := by
  cases h <;> first | rfl | cases hn

theorem filterMap_sobre_neutral {hs : List Hecho} (hn : ∀ h ∈ hs, Hecho.neutral h) (code : Texto) :
    hs.filterMap (Hecho.sobre code) = [] :=
  List.filterMap_eq_nil_iff.mpr fun h hh => Hecho.sobre_neutral (hn h hh) code

theorem ultimo_append_neutral {hs ks : List Hecho} (hn : ∀ h ∈ ks, Hecho.neutral h)
    (code : Texto) : ultimo (hs ++ ks) code = ultimo hs code := by
  rw [ultimo, List.filterMap_append, filterMap_sobre_neutral hn, List.append_nil, ultimo]

theorem ultimo_concat (hs : List Hecho) (h : Hecho) (code : Texto) :
    ultimo (hs ++ [h]) code = (h.sobre code).or (ultimo hs code) := by
  cases hh : h.sobre code <;> simp [ultimo, List.filterMap_append, hh]

namespace Acorde

variable {e' : Estado} {hs : List Hecho}

theorem neutral {ks : List Hecho} (h : Acorde e hs) (hc : e'.cart = e.cart)
    (hn : ∀ k ∈ ks, Hecho.neutral k) : Acorde e' (hs ++ ks) := by
  intro code r hr
  rw [ultimo_append_neutral hn] at hr
  simpa only [Estado.linea, hc] using h code r hr

/-- A write of one line, with the fact that says it. -/
theorem write {k : Hecho} (code : Texto) (h : Acorde e hs)
    (hother : ∀ c, c ≠ code → e'.linea c = e.linea c)
    (hk : ∀ c, k.sobre c = if c = code then some ((e'.linea code).map Linea.qty) else none) :
    Acorde e' (hs ++ [k]) := by
  intro c r hr
  rw [ultimo_concat, hk] at hr
  by_cases hc : c = code
  · subst hc
    simpa using hr
  · rw [if_neg hc, Option.none_or] at hr
    rw [hother c hc]
    exact h c r hr

end Acorde

theorem Quieto.acorde {t u : Trabajo} (h : Quieto t u) (ht : Acorde t.e t.hechos) :
    Acorde u.e u.hechos := by
  obtain ⟨hs, hh, hn⟩ := h.hechos
  rw [hh]
  exact ht.neutral h.cart hn

section Lines

variable {cart : List Linea} {code c : Texto}

theorem find?_concat_code (l : Linea) :
    (cart ++ [l]).find? (fun x => x.code = c) =
      (cart.find? fun x => x.code = c).or (if l.code = c then some l else none) := by
  rw [List.find?_append]
  congr 1
  by_cases h : l.code = c <;> simp [h]

end Lines

theorem sobre_if {code c : Texto} {x y : Option ℤ} (h : x = y) :
    (if code = c then some x else none) = if c = code then some y else none := by
  by_cases hc : c = code
  · simp [hc, h]
  · simp [hc, Ne.symm hc]

theorem Trabajo.add_acorde (t : Trabajo) (code name brand : Texto) (qty : Option ℤ)
    (fuente aliasTexto : Texto) (ht : Acorde t.e t.hechos) :
    Acorde (t.add code name brand qty fuente aliasTexto).e
      (t.add code name brand qty fuente aliasTexto).hechos := by
  rcases t.add_cases code name brand qty fuente aliasTexto with
    ⟨ln, hln, -, h⟩ | ⟨ln, q, -, -, -, h⟩ | ⟨hln, h⟩
  · rw [h]
    refine ht.write code (fun c _ => rfl) fun c => sobre_if ?_
    exact (congrArg (Option.map Linea.qty) hln).symm
  · rw [h]
    refine ht.neutral rfl ?_
    simp [Hecho.neutral]
  · rw [h]
    have hline (c : Texto) : (t.addNueva code name brand qty fuente aliasTexto).e.linea c =
        (t.e.linea c).or (if code = c then some ⟨code, qty.getD 1, name, fuente, brand⟩ else none) :=
      find?_concat_code _
    refine ht.write code (fun c hc => ?_) fun c => sobre_if ?_
    · rw [hline, if_neg (Ne.symm hc), Option.or_none]
    · rw [hline, hln, if_pos rfl]
      rfl

theorem addLineas_acorde (fuente : Texto) (items : List Linea) (t : Trabajo)
    (ht : Acorde t.e t.hechos) :
    Acorde (items.foldl (Trabajo.addLinea fuente) t).e
      (items.foldl (Trabajo.addLinea fuente) t).hechos :=
  foldl_keeps (P := fun u : Trabajo => Acorde u.e u.hechos) items
    (fun u _ _ hu => u.add_acorde _ _ _ _ _ _ hu) ht

theorem ponQty_acorde {t : Trabajo} {code : Texto} {ln : Linea} {q : ℤ} (name : Texto)
    (hln : t.e.linea code = some ln) (ht : Acorde t.e t.hechos) :
    Acorde { t.e with cart := ponQty code q t.e.cart } (t.hechos ++ [.actualizado code name q]) := by
  have hline (c : Texto) : { t.e with cart := ponQty code q t.e.cart }.linea c =
      if c = code then (t.e.linea c).map fun l => { l with qty := q } else t.e.linea c :=
    find?_ponQty q
  refine ht.write code (fun c hc => ?_) fun c => sobre_if ?_
  · rw [hline, if_neg hc]
  · rw [hline, if_pos rfl, hln]
    rfl

theorem paso_acorde (fm : Bool) (t : Trabajo) (op : Op) (ht : Acorde t.e t.hechos) :
    Acorde (paso fm t op).e (paso fm t op).hechos := by
  generalize hp : paso fm t op = t'
  have hef : Efecto t op t' := hp ▸ paso_efecto fm t op
  cases hef with
  | quieto hq => exact hq.acorde ht
  | aparta => exact ht
  | @dice code ln name hln =>
    refine ht.write code (fun c _ => rfl) fun c => sobre_if ?_
    exact (congrArg (Option.map Linea.qty) hln).symm
  | add name brand fuente al hu hop => exact Trabajo.add_acorde _ _ _ _ _ _ _ (hu.acorde ht)
  | fija name hu hln hop =>
    exact ponQty_acorde name ((hu.linea _).trans hln) (hu.acorde ht)
  | @nueva u code q name hu hln hop hq =>
    have hline (c : Texto) :
        ({ u.e with cart := u.e.cart ++ [⟨code, q, name, [], []⟩] } : Estado).linea c =
          (u.e.linea c).or (if code = c then some ⟨code, q, name, [], []⟩ else none) :=
      find?_concat_code _
    refine (hu.acorde ht).write code (fun c hc => ?_) fun c => sobre_if ?_
    · exact (hline c).trans (by rw [if_neg (Ne.symm hc), Option.or_none])
    · refine Eq.trans ?_ (congrArg (Option.map Linea.qty) (hline code)).symm
      rw [hu.linea, hln, if_pos rfl]
      rfl
  | @borra u code name hu hop =>
    have hline (c : Texto) :
        { u.e with cart := u.e.cart.filter fun l => l.code ≠ code }.linea c =
          if c = code then none else u.e.linea c := find?_filter_code
    refine (hu.acorde ht).write code (fun c hc => ?_) fun c => sobre_if ?_
    · exact (hline c).trans (if_neg hc)
    · exact (congrArg (Option.map Linea.qty) ((hline code).trans (if_pos rfl))).symm
  | lineas fuente hu hop hv ht' => exact addLineas_acorde _ _ _ (hu.acorde ht)
  | cierra hu hop hv ht' rs =>
    have hu' := hu.acorde ht
    intro code r hr
    rw [Trabajo.emit, ultimo_concat] at hr
    exact hu' code r hr

/-! ## Pass 2 -/

/-- What says the quantity of one code says nothing of another. -/
theorem Hecho.sobre_of_diceQty {h : Hecho} {code c : Texto} (hd : h.diceQty code) (hc : c ≠ code) :
    h.sobre c = none := by
  cases h with
  | confirmado => exact if_neg fun hn => hc (hn.symm.trans (of_decide_eq_true hd))
  | actualizado => exact if_neg fun hn => hc (hn.symm.trans (of_decide_eq_true hd))
  | sinCambioConfirmado => exact if_neg fun hn => hc (hn.symm.trans (of_decide_eq_true hd))
  | _ => cases hd

/-- Apart from the facts with a quantity, only `eliminado` speaks of a code. -/
theorem Hecho.sobre_of_not_diceQty {h : Hecho} {code : Texto} {r : Option ℤ}
    (hd : h.diceQty code = false) (hs : h.sobre code = some r) : r = none := by
  cases h with
  | eliminado c name =>
    by_cases hc : c = code <;> simp_all [Hecho.sobre]
  | confirmado => simp_all [Hecho.sobre, Hecho.diceQty]
  | actualizado => simp_all [Hecho.sobre, Hecho.diceQty]
  | sinCambioConfirmado => simp_all [Hecho.sobre, Hecho.diceQty]
  | _ => cases hs

theorem regla3Una_acorde (t : Trabajo) (r : Texto × List (Option ℤ)) (ht : Acorde t.e t.hechos) :
    Acorde (regla3Una t r).e (regla3Una t r).hechos := by
  unfold regla3Una
  dsimp only
  split
  · intro c x hx
    rw [Trabajo.emit, ultimo_concat] at hx
    change (ultimo (t.hechos.filter fun h => !h.diceQty r.1) c) = some x at hx
    have hline : (Option.map Linea.qty
        ((t.e.cart.filter fun l => l.code ≠ r.1).find? fun l => l.code = c)) = x := by
      rw [find?_filter_code]
      by_cases hc : c = r.1
      · -- only `eliminado` facts of the suspended code survive, and its line is gone
        subst hc
        rw [if_pos rfl]
        obtain ⟨h, hmem, hs⟩ := List.mem_filterMap.mp (List.mem_of_getLast? hx)
        have hd := (List.mem_filter.mp hmem).2
        exact (Hecho.sobre_of_not_diceQty (by simpa using hd) hs).symm
      · rw [if_neg hc]
        refine ht c x ?_
        rw [← hx, ultimo, ultimo, filterMap_filter_of_false]
        intro h hd
        exact Hecho.sobre_of_diceQty (by simpa using hd) hc
    exact hline
  · exact ht

theorem regla11Linea_acorde (g : ℤ) (t : Trabajo) (code : Texto) (ht : Acorde t.e t.hechos) :
    Acorde (regla11Linea g t code).e (regla11Linea g t code).hechos := by
  unfold regla11Linea
  split
  · exact ht
  · next ln hln => exact ponQty_acorde ln.name hln ht

theorem regla11_acorde (t : Trabajo) (ht : Acorde t.e t.hechos) :
    Acorde (regla11 t).e (regla11 t).hechos := by
  unfold regla11
  split
  · exact ht
  · next g _ =>
    exact foldl_keeps (P := fun u : Trabajo => Acorde u.e u.hechos) t.addedNoQty
      (fun u c _ hu => regla11Linea_acorde g u c hu) ht

theorem reglaMedia_quieto (t : Trabajo) : Quieto t (reglaMedia t) := by
  unfold reglaMedia
  split
  · exact Quieto.refl t
  · exact nuevaSiNo_quieto ..

theorem regla7Item_hechos (hubo : Bool) (ya hs : List Hecho) (i : Item) :
    ∃ ks, (regla7Item hubo ya hs i).2 = hs ++ ks ∧ ∀ k ∈ ks, Hecho.neutral k := by
  have hnil : ∃ ks, hs = hs ++ ks ∧ ∀ k ∈ ks, Hecho.neutral k := ⟨[], by simp, by simp⟩
  have hone (h : Hecho) (hn : h.neutral) : ∃ ks, hs ++ [h] = hs ++ ks ∧ ∀ k ∈ ks, Hecho.neutral k :=
    ⟨[h], rfl, by simpa using hn⟩
  cases i with
  | producto p =>
    simp only [regla7Item]
    split
    · exact hone _ rfl
    · split
      · exact hnil
      · split
        · exact hone _ rfl
        · exact hone _ rfl
  | revisar texto qty => exact hnil
  | conflicto c =>
    simp only [regla7Item]
    split
    · exact hnil
    · exact hone _ rfl
  | siNo p =>
    simp only [regla7Item]
    split
    · exact hnil
    · split
      · exact hone _ rfl
      · exact hone _ rfl

theorem regla7Items_hechos (hubo : Bool) (ya : List Hecho) (items : List Item) (hs : List Hecho) :
    ∃ ks, (regla7Items hubo ya hs items).2 = hs ++ ks ∧ ∀ k ∈ ks, Hecho.neutral k := by
  induction items generalizing hs with
  | nil => exact ⟨[], by simp [regla7Items], by simp⟩
  | cons i items ih =>
    obtain ⟨ks, hk, hkn⟩ := regla7Item_hechos hubo ya hs i
    obtain ⟨ls, hl, hln⟩ := ih (regla7Item hubo ya hs i).2
    refine ⟨ks ++ ls, ?_, ?_⟩
    · rw [hk] at hl
      simp only [regla7Items, hk, hl, List.append_assoc]
    · intro k hk'
      rcases List.mem_append.mp hk' with h | h
      · exact hkn k h
      · exact hln k h

/-- Rule 7 and the clean-up only add neutral facts and only touch open items. -/
theorem limpia_regla7_quieto (t : Trabajo) : Quieto t (limpia (regla7 t)) :=
  ⟨rfl, rfl, rfl, rfl, rfl, rfl, regla7Items_hechos _ _ _ _⟩

theorem pase2_acorde (t : Trabajo) (ht : Acorde t.e t.hechos) :
    Acorde (pase2 t).e (pase2 t).hechos := by
  refine (limpia_regla7_quieto _).acorde (regla11_acorde _ ?_)
  exact foldl_keeps (P := fun u : Trabajo => Acorde u.e u.hechos) _
    (fun u r _ hu => regla3Una_acorde u r hu) ((reglaMedia_quieto t).acorde ht)

theorem tras_acorde (xs : List Op) : Acorde (tras fm e g xs).e (tras fm e g xs).hechos :=
  foldl_keeps (P := fun u : Trabajo => Acorde u.e u.hechos) xs
    (fun u op _ hu => paso_acorde fm u op hu) (fun _ _ h => by simp [ultimo, inicio] at h)

theorem aplicar_hechos (fm : Bool) (e : Estado) (g : Option ℤ) (ops : List Op) :
    ∃ ks, (aplicar e ops fm g).hechos = (pase2 (tras fm e g ops)).hechos ++ ks ∧
      ∀ k ∈ ks, Hecho.neutral k := by
  unfold aplicar
  dsimp only
  split
  · exact ⟨[.sinEntender], rfl, by simp [Hecho.neutral]⟩
  · exact ⟨[], by simp [tras], by simp⟩

/-- The last fact about a code agrees with the resulting cart, whatever the operations. -/
theorem aplicar_acorde : Acorde (aplicar e ops fm g).estado (aplicar e ops fm g).hechos := by
  obtain ⟨ks, hk, hn⟩ := aplicar_hechos fm e g ops
  rw [hk, aplicar_estado]
  exact (pase2_acorde _ (tras_acorde ops)).neutral rfl hn

/-! ## The snapshot of the close -/

/-- A `confirmar` here would close the order. -/
def Estado.cierraAhora (e : Estado) : Prop := ∃ v, e.siNoVivo = some v ∧ v.tipo = .cierre

theorem not_mem_cerrado_of_neutral {hs : List Hecho} (hn : ∀ h ∈ hs, Hecho.neutral h)
    (cart : List Linea) (rs : List Texto) : Hecho.cerrado cart rs ∉ hs := by
  intro h
  cases hn _ h

/-- No step but a closing `confirmar` adds a fact that is a snapshot of the cart. -/
def SinCierre (hs ks : List Hecho) : Prop :=
  ∃ ls, ks = hs ++ ls ∧ ∀ cart rs, Hecho.cerrado cart rs ∉ ls

theorem Quieto.sinCierre {t u : Trabajo} (h : Quieto t u) : SinCierre t.hechos u.hechos := by
  obtain ⟨ls, hl, hn⟩ := h.hechos
  exact ⟨ls, hl, not_mem_cerrado_of_neutral hn⟩

namespace SinCierre

variable {hs ks : List Hecho}

theorem trans {ls : List Hecho} (h : SinCierre hs ks) (k : SinCierre ks ls) : SinCierre hs ls := by
  obtain ⟨xs, rfl, hx⟩ := h
  obtain ⟨ys, rfl, hy⟩ := k
  refine ⟨xs ++ ys, by simp, fun cart rs hm => ?_⟩
  rcases List.mem_append.mp hm with h | h
  · exact hx cart rs h
  · exact hy cart rs h

theorem concat (h : SinCierre hs ks) {k : Hecho} (hk : ∀ cart rs, k ≠ .cerrado cart rs) :
    SinCierre hs (ks ++ [k]) :=
  h.trans ⟨[k], rfl, fun cart rs hm => hk cart rs (List.mem_singleton.mp hm).symm⟩

theorem mem_iff (h : SinCierre hs ks) (cart : List Linea) (rs : List Texto) :
    Hecho.cerrado cart rs ∈ ks ↔ Hecho.cerrado cart rs ∈ hs := by
  obtain ⟨ls, rfl, hl⟩ := h
  simp [hl cart rs]

end SinCierre

theorem Trabajo.add_sinCierre (t : Trabajo) (code name brand : Texto) (qty : Option ℤ)
    (fuente aliasTexto : Texto) :
    SinCierre t.hechos (t.add code name brand qty fuente aliasTexto).hechos := by
  have h0 : SinCierre t.hechos t.hechos := ⟨[], by simp, by simp⟩
  rcases t.add_cases code name brand qty fuente aliasTexto with
    ⟨ln, -, -, h⟩ | ⟨ln, q, -, -, -, h⟩ | ⟨-, h⟩
  all_goals
    rw [h]
    exact h0.concat fun _ _ hk => by cases hk

theorem addLineas_sinCierre (fuente : Texto) (items : List Linea) (t : Trabajo) :
    SinCierre t.hechos (items.foldl (Trabajo.addLinea fuente) t).hechos :=
  foldl_keeps (P := fun u : Trabajo => SinCierre t.hechos u.hechos) items
    (fun u _ _ hu => hu.trans (u.add_sinCierre ..)) ⟨[], by simp, by simp⟩

/-- Where the snapshots of the cart come from. -/
theorem paso_cerrado_mem (fm : Bool) (t : Trabajo) (op : Op) (cart : List Linea) (rs : List Texto)
    (h : Hecho.cerrado cart rs ∈ (paso fm t op).hechos) :
    Hecho.cerrado cart rs ∈ t.hechos ∨
      (op = .confirmar ∧ t.e.cierraAhora ∧ cart = t.e.cart) := by
  generalize hp : paso fm t op = t' at h
  have hef : Efecto t op t' := hp ▸ paso_efecto fm t op
  cases hef with
  | quieto hq => exact Or.inl ((hq.sinCierre.mem_iff cart rs).mp h)
  | aparta => exact Or.inl h
  | dice => exact Or.inl (by simpa using h)
  | add name brand fuente al hu hop =>
    exact Or.inl (((hu.sinCierre.trans (Trabajo.add_sinCierre ..)).mem_iff cart rs).mp h)
  | fija name hu hln hop =>
    exact Or.inl ((hu.sinCierre.mem_iff cart rs).mp (by simpa using h))
  | nueva name hu hln hop hq =>
    exact Or.inl ((hu.sinCierre.mem_iff cart rs).mp (by simpa [Trabajo.enMarcha] using h))
  | borra name hu hop =>
    exact Or.inl ((hu.sinCierre.mem_iff cart rs).mp (by simpa using h))
  | lineas fuente hu hop hv ht =>
    exact Or.inl (((hu.sinCierre.trans (addLineas_sinCierre ..)).mem_iff cart rs).mp h)
  | @cierra u v hu hop hv ht rs' =>
    rcases List.mem_append.mp h with h | h
    · exact Or.inl ((hu.sinCierre.mem_iff cart rs).mp h)
    · obtain ⟨rfl, -⟩ : cart = u.e.cart ∧ rs = rs' := by simpa using h
      exact Or.inr ⟨hop, ⟨v, hv, ht⟩, hu.cart⟩

/-- A snapshot stays among the facts. -/
theorem paso_cerrado_stays (fm : Bool) (t : Trabajo) (op : Op) {cart : List Linea} {rs : List Texto}
    (h : Hecho.cerrado cart rs ∈ t.hechos) : Hecho.cerrado cart rs ∈ (paso fm t op).hechos := by
  generalize hp : paso fm t op = t'
  have hef : Efecto t op t' := hp ▸ paso_efecto fm t op
  have happ {hs ks : List Hecho} (hk : SinCierre hs ks) (hm : Hecho.cerrado cart rs ∈ hs) :
      Hecho.cerrado cart rs ∈ ks := (hk.mem_iff cart rs).mpr hm
  cases hef with
  | quieto hq => exact happ hq.sinCierre h
  | aparta => exact h
  | dice => exact List.mem_append_left _ h
  | add name brand fuente al hu hop => exact happ (hu.sinCierre.trans (Trabajo.add_sinCierre ..)) h
  | fija name hu hln hop => exact List.mem_append_left _ (happ hu.sinCierre h)
  | nueva name hu hln hop hq => exact List.mem_append_left _ (happ hu.sinCierre h)
  | borra name hu hop => exact List.mem_append_left _ (happ hu.sinCierre h)
  | lineas fuente hu hop hv ht => exact happ (hu.sinCierre.trans (addLineas_sinCierre ..)) h
  | cierra hu hop hv ht rs' => exact List.mem_append_left _ (happ hu.sinCierre h)

/-- Closing takes the snapshot. -/
theorem paso_cierra (fm : Bool) {t : Trabajo} {v : Propuesta} (hv : t.e.siNoVivo = some v)
    (ht : v.tipo = .cierre) :
    ∃ u, Quieto t u ∧ paso fm t .confirmar =
      (u.conEstado { u.e with orderStatus := .closed }).emit
        (.cerrado u.e.cart (u.e.aRevisar.map Prod.fst)) := by
  have hu : Quieto t (t.quita (.siNo v)) := (Quieto.refl t).quita _
  refine ⟨_, hu.trans (revision_quieto (t.quita (.siNo v)).e.productosAbiertos _), ?_⟩
  simp only [paso, hv, ejecuta, ht]
  rfl

theorem paso_cierra_mem (fm : Bool) {t : Trabajo} (h : t.e.cierraAhora) :
    ∃ rs, Hecho.cerrado t.e.cart rs ∈ (paso fm t .confirmar).hechos := by
  obtain ⟨v, hv, ht⟩ := h
  obtain ⟨u, hu, hp⟩ := paso_cierra fm hv ht
  refine ⟨u.e.aRevisar.map Prod.fst, ?_⟩
  rw [hp, hu.cart]
  exact List.mem_append_right _ List.mem_cons_self

theorem pase2_cerrado (t : Trabajo) (cart : List Linea) (rs : List Texto) :
    Hecho.cerrado cart rs ∈ (pase2 t).hechos ↔ Hecho.cerrado cart rs ∈ t.hechos := by
  have h3 (u : Trabajo) (r : Texto × List (Option ℤ)) :
      Hecho.cerrado cart rs ∈ (regla3Una u r).hechos ↔ Hecho.cerrado cart rs ∈ u.hechos := by
    unfold regla3Una
    dsimp only
    split
    · simp [Hecho.diceQty]
    · rfl
  have h11 (u : Trabajo) (g : ℤ) (c : Texto) :
      Hecho.cerrado cart rs ∈ (regla11Linea g u c).hechos ↔ Hecho.cerrado cart rs ∈ u.hechos := by
    unfold regla11Linea
    split <;> simp
  have hr3 : Hecho.cerrado cart rs ∈ (regla3 (reglaMedia t)).hechos ↔
      Hecho.cerrado cart rs ∈ (reglaMedia t).hechos :=
    foldl_keeps (P := fun u : Trabajo => Hecho.cerrado cart rs ∈ u.hechos ↔
      Hecho.cerrado cart rs ∈ (reglaMedia t).hechos) _ (fun u r _ hu => (h3 u r).trans hu) Iff.rfl
  have hr11 : Hecho.cerrado cart rs ∈ (regla11 (regla3 (reglaMedia t))).hechos ↔
      Hecho.cerrado cart rs ∈ (regla3 (reglaMedia t)).hechos := by
    unfold regla11
    split
    · rfl
    · next g _ =>
      exact foldl_keeps (P := fun u : Trabajo => Hecho.cerrado cart rs ∈ u.hechos ↔
        Hecho.cerrado cart rs ∈ (regla3 (reglaMedia t)).hechos) _
        (fun u c _ hu => (h11 u g c).trans hu) Iff.rfl
  calc Hecho.cerrado cart rs ∈ (pase2 t).hechos
      ↔ Hecho.cerrado cart rs ∈ (regla11 (regla3 (reglaMedia t))).hechos :=
        (limpia_regla7_quieto _).sinCierre.mem_iff cart rs
    _ ↔ Hecho.cerrado cart rs ∈ (reglaMedia t).hechos := hr11.trans hr3
    _ ↔ Hecho.cerrado cart rs ∈ t.hechos := (reglaMedia_quieto t).sinCierre.mem_iff cart rs

theorem aplicar_cerrado (cart : List Linea) (rs : List Texto) :
    Hecho.cerrado cart rs ∈ (aplicar e ops fm g).hechos ↔
      Hecho.cerrado cart rs ∈ (tras fm e g ops).hechos := by
  obtain ⟨ks, hk, hn⟩ := aplicar_hechos fm e g ops
  rw [hk, List.mem_append, or_iff_left (not_mem_cerrado_of_neutral hn cart rs), pase2_cerrado]

/-- Every snapshot of the turn is the cart at some closing `confirmar`. -/
theorem tras_cerrado_mem (ops : List Op) (cart : List Linea) (rs : List Texto)
    (h : Hecho.cerrado cart rs ∈ (tras fm e g ops).hechos) :
    ∃ xs ys, ops = xs ++ .confirmar :: ys ∧ (tras fm e g xs).e.cierraAhora ∧
      cart = (tras fm e g xs).e.cart := by
  induction ops using List.reverseRecOn with
  | nil => exact absurd h List.not_mem_nil
  | append_singleton ops op ih =>
    rw [tras_concat] at h
    rcases paso_cerrado_mem fm _ op cart rs h with h | ⟨rfl, hc, hcart⟩
    · obtain ⟨xs, ys, rfl, hc, hcart⟩ := ih h
      exact ⟨xs, ys ++ [op], by simp, hc, hcart⟩
    · exact ⟨ops, [], rfl, hc, hcart⟩

theorem tras_cerrado_of_closing (xs ys : List Op) (h : (tras fm e g xs).e.cierraAhora) :
    ∃ rs, Hecho.cerrado (tras fm e g xs).e.cart rs ∈ (tras fm e g (xs ++ .confirmar :: ys)).hechos := by
  induction ys using List.reverseRecOn with
  | nil =>
    rw [tras_concat]
    exact paso_cierra_mem fm h
  | append_singleton ys op ih =>
    obtain ⟨rs, hrs⟩ := ih
    refine ⟨rs, ?_⟩
    rw [← List.cons_append, ← List.append_assoc, tras_concat]
    exact paso_cerrado_stays fm _ op hrs

/-! ## The reply and the order -/

/-- What the reply owes the order: the last fact about a code is what the cart holds,
and the cart shown at the close is the resulting one and is not written again. -/
structure ReplyAgrees (fm : Bool) (e : Estado) (g : Option ℤ) (ops : List Op) : Prop where
  facts : ∀ code r, ultimo (aplicar e ops fm g).hechos code = some r →
    ((aplicar e ops fm g).estado.linea code).map Linea.qty = r
  closed : ∀ cart rs, Hecho.cerrado cart rs ∈ (aplicar e ops fm g).hechos →
    (aplicar e ops fm g).estado.cart = cart
  steady : ∀ xs us vs, ops = xs ++ .confirmar :: (us ++ vs) → (tras fm e g xs).e.cierraAhora →
    (tras fm e g (xs ++ .confirmar :: us)).e.cart = (tras fm e g xs).e.cart

/-- After a closing `confirmar` no operation takes a writing branch and the
transversal rules find no line. -/
structure NothingAfterClose (fm : Bool) (e : Estado) (g : Option ℤ) (ops : List Op) : Prop where
  pass1 : ∀ xs us op vs, ops = xs ++ .confirmar :: (us ++ op :: vs) →
    (tras fm e g xs).e.cierraAhora →
      op.escribe fm (tras fm e g (xs ++ .confirmar :: us)).e = false
  pass2 : ∀ xs ys, ops = xs ++ .confirmar :: ys → (tras fm e g xs).e.cierraAhora →
    ¬ (tras fm e g ops).suspende ∧ ¬ (tras fm e g ops).iguala

theorem paso_cierra_cart (fm : Bool) {t : Trabajo} (h : t.e.cierraAhora) :
    (paso fm t .confirmar).e.cart = t.e.cart := by
  obtain ⟨v, hv, ht⟩ := h
  exact (paso_cart_iff fm t .confirmar).mpr (by simp [Op.escribe, hv, ht])

theorem steady_of_pass1 (h : NothingAfterClose fm e g ops) (xs us vs : List Op)
    (hops : ops = xs ++ .confirmar :: (us ++ vs)) (hc : (tras fm e g xs).e.cierraAhora) :
    (tras fm e g (xs ++ .confirmar :: us)).e.cart = (tras fm e g xs).e.cart := by
  induction us using List.reverseRecOn generalizing vs with
  | nil =>
    rw [tras_concat]
    exact paso_cierra_cart fm hc
  | append_singleton us op ih =>
    have hops' : ops = xs ++ .confirmar :: (us ++ op :: vs) := by simp [hops]
    have hw := h.pass1 xs us op vs hops' hc
    rw [← List.cons_append, ← List.append_assoc, tras_concat, (paso_cart_iff fm _ op).mpr hw]
    exact ih (op :: vs) hops'

/-- The reply agrees with the order, and keeps doing so after the close, exactly when
nothing writes a line after a closing `confirmar`. -/
theorem replyAgrees_iff : ReplyAgrees fm e g ops ↔ NothingAfterClose fm e g ops := by
  constructor
  · intro h
    refine ⟨fun xs us op vs hops hc => ?_, fun xs ys hops hc => ?_⟩
    · have h1 := h.steady xs us (op :: vs) hops hc
      have h2 := h.steady xs (us ++ [op]) vs (by simp [hops]) hc
      rw [← List.cons_append, ← List.append_assoc, tras_concat] at h2
      exact (paso_cart_iff fm _ op).mp (h2.trans h1.symm)
    · obtain ⟨rs, hrs⟩ := tras_cerrado_of_closing xs ys hc
      rw [← hops, ← aplicar_cerrado] at hrs
      have hend := h.closed _ rs hrs
      have hpass := h.steady xs ys [] (by simp [hops]) hc
      rw [← hops] at hpass
      rw [aplicar_estado] at hend
      exact (pase2_cart_iff _).mp (hend.trans hpass.symm)
  · intro h
    refine ⟨aplicar_acorde, fun cart rs hm => ?_, fun xs us vs hops hc => ?_⟩
    · obtain ⟨xs, ys, hops, hc, rfl⟩ := tras_cerrado_mem ops cart rs ((aplicar_cerrado cart rs).mp hm)
      have hpass := steady_of_pass1 h xs ys [] (by simpa using hops) hc
      rw [← hops] at hpass
      rw [aplicar_estado, ← hpass]
      exact (pase2_cart_iff _).mpr (h.pass2 xs ys hops hc)
    · exact steady_of_pass1 h xs us vs hops hc

/-- "Sí, y ponme también..." in one message: the line enters after the snapshot. -/
theorem add_after_close_is_not_shown :
    ¬ ReplyAgrees false
      { orderStatus := .building
        cart := [⟨"KJ401", 6, "KAJAL NEGRO INTENSO", "pedidos", []⟩]
        openItems := [.siNo { tipo := .cierre, items :=
          [⟨"KJ401", 6, "KAJAL NEGRO INTENSO", "pedidos", []⟩] }] }
      none [.confirmar, .add "SN200" "SERUM NOCHE 30ML" "ROC" (some 2) "catalogo"] := by
  intro h
  have hclosed := h.closed [⟨"KJ401", 6, "KAJAL NEGRO INTENSO", "pedidos", []⟩] [] (by decide)
  revert hclosed
  decide

end Chatlink.Agent
