import Chatlink.Agent.CartWrites

/-!
# The frame of a cart line

Which lines of the cart survive a turn that does not speak of them. Pass 1 keeps
every line that no operation names; pass 2 takes a line out exactly when its code
was requested with two different numbers, so the requests of a turn, read off the
state before each operation, decide the frame.
-/
namespace Chatlink.Agent

open Lists

variable {fm : Bool} {e : Estado} {g : Option ℤ} {ops : List Op}

/-! ## The requests of a turn -/

/-- The requests for lines an operation makes, as `seen_adds` records them. -/
def Op.pedidas (fm : Bool) (e : Estado) : Op → List (Texto × Option ℤ)
  | .add code _ _ qty _ => if fm then [] else [(code, qty)]
  | .elige item code _ _ _ =>
    [(code, (e.productosAbiertos.find? fun p => p.texto = item).bind Producto.qty)]
  | .confirmar =>
    match e.siNoVivo with
    | none => []
    | some v =>
      if v.tipo.deLineas then v.items.map fun l => (l.code, some (orNum (some l.qty) 1)) else []
  | _ => []

/-- The code is requested with `q` by some operation of the turn. -/
def Pedida (fm : Bool) (e : Estado) (g : Option ℤ) (ops : List Op) (code : Texto)
    (q : Option ℤ) : Prop :=
  ∃ xs op ys, ops = xs ++ op :: ys ∧ (code, q) ∈ op.pedidas fm (tras fm e g xs).e

/-- The code is requested with two different numbers in one turn. -/
def Disputada (fm : Bool) (e : Estado) (g : Option ℤ) (ops : List Op) (code : Texto) : Prop :=
  ∃ a b, a ≠ b ∧ Pedida fm e g ops code (some a) ∧ Pedida fm e g ops code (some b)

theorem pedida_concat (op : Op) (code : Texto) (q : Option ℤ) :
    Pedida fm e g (ops ++ [op]) code q ↔
      Pedida fm e g ops code q ∨ (code, q) ∈ op.pedidas fm (tras fm e g ops).e := by
  constructor
  · rintro ⟨xs, o, ys, hops, hq⟩
    rcases List.eq_nil_or_concat' ys with rfl | ⟨ys, y, rfl⟩
    · obtain ⟨rfl, h⟩ := List.append_inj' hops rfl
      obtain rfl := (List.cons.inj h).1
      exact Or.inr hq
    · rw [← List.cons_append, ← List.append_assoc] at hops
      obtain ⟨rfl, -⟩ := List.append_inj' hops rfl
      exact Or.inl ⟨xs, o, ys, rfl, hq⟩
  · rintro (⟨xs, o, ys, rfl, hq⟩ | hq)
    · exact ⟨xs, o, ys ++ [op], by simp, hq⟩
    · exact ⟨ops, op, [], rfl, hq⟩

/-! ## `seen_adds` groups the requests by code -/

/-- `q` is among the quantities recorded for `code`. -/
def Apuntada (seen : List (Texto × List (Option ℤ))) (code : Texto) (q : Option ℤ) : Prop :=
  ∃ qs, (code, qs) ∈ seen ∧ q ∈ qs

section SeenAdds

variable {seen : List (Texto × List (Option ℤ))} {code c : Texto} {qty q : Option ℤ}

theorem apuntada_anotaAdd :
    Apuntada (anotaAdd code qty seen) c q ↔ Apuntada seen c q ∨ (c = code ∧ q = qty) := by
  induction seen with
  | nil => simp [anotaAdd, Apuntada]
  | cons r seen ih =>
    obtain ⟨d, qs⟩ := r
    have hcons (rs : List (Texto × List (Option ℤ))) (ps : List (Option ℤ)) :
        Apuntada ((d, ps) :: rs) c q ↔ (c = d ∧ q ∈ ps) ∨ Apuntada rs c q := by
      constructor
      · rintro ⟨us, hus, hq⟩
        rcases List.mem_cons.mp hus with h | h
        · obtain ⟨rfl, rfl⟩ := Prod.mk.inj h
          exact Or.inl ⟨rfl, hq⟩
        · exact Or.inr ⟨us, h, hq⟩
      · rintro (⟨rfl, hq⟩ | ⟨us, hus, hq⟩)
        · exact ⟨ps, List.mem_cons_self, hq⟩
        · exact ⟨us, List.mem_cons_of_mem _ hus, hq⟩
    by_cases hd : d = code
    · subst hd
      rw [anotaAdd, if_pos rfl, hcons, hcons, List.mem_append, List.mem_singleton]
      tauto
    · rw [anotaAdd, if_neg hd, hcons, hcons, ih]
      tauto

theorem anotaAdd_codes (h : (seen.map Prod.fst).Nodup) :
    ((anotaAdd code qty seen).map Prod.fst).Nodup := by
  have hmem {d : Texto} {rs : List (Texto × List (Option ℤ))}
      (hd : d ∈ (anotaAdd code qty rs).map Prod.fst) : d = code ∨ d ∈ rs.map Prod.fst := by
    induction rs with
    | nil => simpa [anotaAdd] using hd
    | cons r rs ih =>
      by_cases hr : r.1 = code
      · rw [anotaAdd, if_pos hr] at hd
        exact Or.inr (by simpa using hd)
      · rw [anotaAdd, if_neg hr, List.map_cons] at hd
        rcases List.mem_cons.mp hd with rfl | hd
        · exact Or.inr List.mem_cons_self
        · exact (ih hd).imp_right (List.mem_cons_of_mem _)
  induction seen with
  | nil => simp [anotaAdd]
  | cons r seen ih =>
    rw [List.map_cons, List.nodup_cons] at h
    by_cases hr : r.1 = code
    · rw [anotaAdd, if_pos hr]
      exact List.nodup_cons.mpr h
    · rw [anotaAdd, if_neg hr, List.map_cons, List.nodup_cons]
      refine ⟨fun hin => ?_, ih h.2⟩
      rcases hmem hin with hc | hs
      · exact hr hc
      · exact h.1 hs

end SeenAdds

/-- Two different numbers are recorded in one entry. -/
theorem one_lt_distintas {qs : List (Option ℤ)} :
    1 < (distintas qs).length ↔ ∃ a b, a ≠ b ∧ some a ∈ qs ∧ some b ∈ qs := by
  have hmem (a : ℤ) : a ∈ (qs.filterMap id).toFinset ↔ some a ∈ qs := by simp
  rw [distintas, sortedSet, List.length_insertionSort, ← List.card_toFinset, Finset.one_lt_card]
  simp only [hmem]
  constructor
  · rintro ⟨a, ha, b, hb, hab⟩
    exact ⟨a, b, hab, ha, hb⟩
  · rintro ⟨a, b, hab, ha, hb⟩
    exact ⟨a, ha, b, hb, hab⟩

/-- Recording a list of requests. -/
def apunta (seen : List (Texto × List (Option ℤ))) (rs : List (Texto × Option ℤ)) :
    List (Texto × List (Option ℤ)) :=
  rs.foldl (fun s r => anotaAdd r.1 r.2 s) seen

theorem apunta_codes {seen : List (Texto × List (Option ℤ))} (rs : List (Texto × Option ℤ))
    (h : (seen.map Prod.fst).Nodup) : ((apunta seen rs).map Prod.fst).Nodup :=
  foldl_keeps (P := fun s : List (Texto × List (Option ℤ)) => (s.map Prod.fst).Nodup) rs
    (fun _ _ _ hs => anotaAdd_codes hs) h

theorem apuntada_apunta {seen : List (Texto × List (Option ℤ))} (rs : List (Texto × Option ℤ))
    {c : Texto} {q : Option ℤ} :
    Apuntada (apunta seen rs) c q ↔ Apuntada seen c q ∨ (c, q) ∈ rs := by
  induction rs generalizing seen with
  | nil => simp [apunta]
  | cons r rs ih =>
    have h := @ih (anotaAdd r.1 r.2 seen)
    rw [apuntada_anotaAdd] at h
    refine h.trans ?_
    rw [List.mem_cons, or_assoc, Prod.ext_iff]

theorem add_seenAdds (t : Trabajo) (code name brand : Texto) (qty : Option ℤ)
    (fuente aliasTexto : Texto) :
    (t.add code name brand qty fuente aliasTexto).seenAdds = anotaAdd code qty t.seenAdds := by
  rcases t.add_cases code name brand qty fuente aliasTexto with
    ⟨ln, -, -, h⟩ | ⟨ln, q, -, -, -, h⟩ | ⟨-, h⟩
  all_goals rw [h]; rfl

theorem addLineas_seenAdds (fuente : Texto) (items : List Linea) (t : Trabajo) :
    (items.foldl (Trabajo.addLinea fuente) t).seenAdds =
      apunta t.seenAdds (items.map fun l => (l.code, some (orNum (some l.qty) 1))) := by
  induction items generalizing t with
  | nil => rfl
  | cons l items ih =>
    rw [List.foldl_cons, ih, Trabajo.addLinea, add_seenAdds]
    rfl

theorem setQty_seenAdds (t : Trabajo) (code name : Texto) (modo : Modo) (valor : Option ℤ) :
    (t.setQty code name modo valor).seenAdds = t.seenAdds := by
  rcases t.setQty_cases code name modo valor with
    ⟨-, h⟩ | ⟨ln, -, -, h⟩ | ⟨ln, v, -, -, h⟩ | ⟨ln, -, -, h⟩ | ⟨ln, q, -, h⟩
  all_goals rw [h]; rfl

/-- One operation records exactly its requests. -/
theorem paso_seenAdds (fm : Bool) (t : Trabajo) (op : Op) :
    (paso fm t op).seenAdds = apunta t.seenAdds (op.pedidas fm t.e) := by
  cases op with
  | add code name brand qty fuente =>
    cases fm with
    | true => rfl
    | false => exact add_seenAdds t code name brand qty fuente []
  | modificar code name modo valor b vn =>
    simp only [paso]
    split
    · split
      · rfl
      · split <;> rfl
    · exact setQty_seenAdds t code name modo valor
  | elige item code name brand fuente =>
    simp only [paso, Op.pedidas]
    split
    · next p hp =>
      rw [hp, add_seenAdds]
      rfl
    · next hp =>
      rw [hp, add_seenAdds]
      rfl
  | eligeQty code valor =>
    simp only [paso]
    split
    · rfl
    · split
      · split <;> rfl
      · rfl
  | confirmar =>
    simp only [paso, Op.pedidas]
    cases hv : t.e.siNoVivo with
    | none => rfl
    | some v =>
      simp only [ejecuta]
      cases v.tipo with
      | cierre => exact (revision_quieto _ (t.quita (.siNo v))).seenAdds
      | baja =>
        dsimp only
        split <;> rfl
      | media => exact addLineas_seenAdds "media" v.items (t.quita (.siNo v))
      | repetir => exact addLineas_seenAdds "repetir" v.items (t.quita (.siNo v))
  | _ => exact (paso_quieto fm t rfl).seenAdds

theorem tras_seenAdds (fm : Bool) (e : Estado) (g : Option ℤ) (ops : List Op) :
    ((tras fm e g ops).seenAdds.map Prod.fst).Nodup ∧
      ∀ c q, Apuntada (tras fm e g ops).seenAdds c q ↔ Pedida fm e g ops c q := by
  induction ops using List.reverseRecOn with
  | nil => exact ⟨List.nodup_nil, fun c q => by simp [Apuntada, Pedida, inicio]⟩
  | append_singleton ops op ih =>
    rw [tras_concat, paso_seenAdds]
    refine ⟨apunta_codes _ ih.1, fun c q => ?_⟩
    rw [apuntada_apunta, pedida_concat, ih.2]

/-- Rule 3 acts on a code exactly when it is disputed. -/
theorem suspendida_iff (fm : Bool) (e : Estado) (g : Option ℤ) (ops : List Op) (code : Texto) :
    (∃ r ∈ (tras fm e g ops).seenAdds, 1 < (distintas r.2).length ∧ code = r.1) ↔
      Disputada fm e g ops code := by
  obtain ⟨hnd, hseen⟩ := tras_seenAdds fm e g ops
  constructor
  · rintro ⟨⟨c, qs⟩, hr, hd, rfl⟩
    obtain ⟨a, b, hab, ha, hb⟩ := one_lt_distintas.mp hd
    exact ⟨a, b, hab, (hseen _ _).mp ⟨qs, hr, ha⟩, (hseen _ _).mp ⟨qs, hr, hb⟩⟩
  · rintro ⟨a, b, hab, ha, hb⟩
    obtain ⟨qs, hqs, ha⟩ := (hseen _ _).mpr ha
    obtain ⟨ps, hps, hb⟩ := (hseen _ _).mpr hb
    -- both numbers are in the one entry of the code
    have heq : (code, qs) = (code, ps) := List.inj_on_of_nodup_map hnd hqs hps rfl
    obtain rfl := (Prod.mk.inj heq).2
    exact ⟨(code, qs), hqs, one_lt_distintas.mpr ⟨a, b, hab, ha, hb⟩, rfl⟩

/-! ## Pass 1 keeps the lines nobody names -/

/-- The operation is about the line of `code` itself: a `modificar` or an `elige_qty` of
it, or the "sí" to its removal. -/
def Op.Toca (e : Estado) (code : Texto) : Op → Prop
  | .modificar c _ _ _ _ _ => c = code
  | .eligeQty c _ => c = code
  | .confirmar => ∃ v, e.siNoVivo = some v ∧ v.tipo = .baja ∧ v.code = code
  | _ => False

theorem Op.Fija.toca {e : Estado} {ln : Linea} {q : ℤ} {op : Op} (h : op.Fija e ln q) :
    op.Toca e ln.code := by
  cases op with
  | modificar => exact h.1
  | eligeQty => exact h.1
  | _ => cases h

theorem Op.Borra.toca {e : Estado} {code : Texto} {op : Op} (h : op.Borra e code) :
    op.Toca e code := by
  cases op with
  | modificar => exact h.1
  | confirmar => exact h
  | _ => cases h

/-- Setting the quantity of one code says nothing about the lines of another. -/
theorem mem_ponQty_of_ne {code : Texto} {q : ℤ} {cart : List Linea} {l : Linea}
    (hc : l.code ≠ code) : l ∈ ponQty code q cart ↔ l ∈ cart := by
  induction cart with
  | nil => rfl
  | cons k cart ih =>
    by_cases hk : k.code = code
    · have hl : l ≠ k := fun h => hc (h ▸ hk)
      have hl' : l ≠ { k with qty := q } := fun h => hc (h ▸ hk)
      rw [ponQty, if_pos hk, List.mem_cons, List.mem_cons, or_iff_right hl, or_iff_right hl']
    · rw [ponQty, if_neg hk, List.mem_cons, List.mem_cons, ih]

theorem linea_isSome {e : Estado} {l : Linea} (h : l ∈ e.cart) : e.linea l.code ≠ none := by
  intro hn
  simpa using List.find?_eq_none.mp hn l h

/-- A line that was there before the turn: in the cart, and not one of the lines that
came this turn without a number. -/
def Asentada (t : Trabajo) (l : Linea) : Prop := l ∈ t.e.cart ∧ l.code ∉ t.addedNoQty

theorem Asentada.of_quieto {t u : Trabajo} {l : Linea} (h : Asentada t l) (hu : Quieto t u) :
    Asentada u l :=
  ⟨hu.cart ▸ h.1, hu.addedNoQty ▸ h.2⟩

theorem Asentada.add {t : Trabajo} {l : Linea} (h : Asentada t l) (code name brand : Texto)
    (qty : Option ℤ) (fuente aliasTexto : Texto) :
    Asentada (t.add code name brand qty fuente aliasTexto) l := by
  rcases t.add_cases code name brand qty fuente aliasTexto with
    ⟨ln, -, -, he⟩ | ⟨ln, q, -, -, -, he⟩ | ⟨hln, he⟩
  all_goals rw [he]
  · exact h
  · exact h
  · refine ⟨List.mem_append_left _ h.1, ?_⟩
    have hne : l.code ≠ code := by
      rintro rfl
      exact linea_isSome h.1 hln
    simp only [Trabajo.addNueva, Trabajo.emit]
    split
    · simp [h.2, hne]
    · exact h.2

/-- The step lemma of the frame. -/
theorem Asentada.paso {t : Trabajo} {l : Linea} (h : Asentada t l) (fm : Bool) {op : Op}
    (hop : ¬ op.Toca t.e l.code) : Asentada (paso fm t op) l := by
  generalize hp : Chatlink.Agent.paso fm t op = t'
  have hef : Efecto t op t' := hp ▸ paso_efecto fm t op
  cases hef with
  | quieto hq => exact h.of_quieto hq
  | aparta => exact h
  | dice => exact h
  | add name brand fuente al hu _ => exact (h.of_quieto hu).add _ _ _ _ _ _
  | fija name hu hln hf =>
    have hu' := h.of_quieto hu
    refine ⟨(mem_ponQty_of_ne ?_).mpr hu'.1, hu'.2⟩
    intro hc
    exact hop (hc ▸ hf.toca)
  | nueva name hu hln he hq =>
    have hu' := h.of_quieto hu
    exact ⟨List.mem_append_left _ hu'.1, hu'.2⟩
  | borra name hu hb =>
    have hu' := h.of_quieto hu
    refine ⟨List.mem_filter.mpr ⟨hu'.1, ?_⟩, hu'.2⟩
    simp only [ne_eq, decide_not, Bool.not_eq_true', decide_eq_false_iff_not]
    intro hc
    exact hop (hc ▸ hb.toca)
  | lineas fuente hu hc hv ht =>
    exact foldl_keeps (P := fun u => Asentada u l) _ (fun u k _ hk => hk.add _ _ _ _ _ _)
      (h.of_quieto hu)
  | cierra hu hc hv ht rs =>
    have hu' := h.of_quieto hu
    exact ⟨hu'.1, hu'.2⟩

/-- No operation of the turn is about the line of `code`. -/
def Ajena (fm : Bool) (e : Estado) (g : Option ℤ) (ops : List Op) (code : Texto) : Prop :=
  ∀ xs op ys, ops = xs ++ op :: ys → ¬ op.Toca (tras fm e g xs).e code

theorem Ajena.init {op : Op} {code : Texto} (h : Ajena fm e g (ops ++ [op]) code) :
    Ajena fm e g ops code := by
  rintro xs o ys rfl
  exact h xs o (ys ++ [op]) (by simp)

theorem tras_asentada {l : Linea} (hl : l ∈ e.cart) (h : Ajena fm e g ops l.code) :
    Asentada (tras fm e g ops) l := by
  induction ops using List.reverseRecOn with
  | nil => exact ⟨hl, List.not_mem_nil⟩
  | append_singleton ops op ih =>
    rw [tras_concat]
    exact (ih h.init).paso fm (h ops op [] rfl)

/-! ## Pass 2 -/

theorem mem_regla3 {t : Trabajo} {l : Linea} (h : l ∈ t.e.cart) :
    l ∈ (regla3 t).e.cart ↔ ¬ ∃ r ∈ t.seenAdds, 1 < (distintas r.2).length ∧ l.code = r.1 := by
  rw [regla3, regla3_cart, List.mem_filter]
  simp only [h, true_and, Bool.not_eq_true', List.any_eq_false, Bool.and_eq_true,
    decide_eq_true_eq, beq_iff_eq, not_exists, not_and]

theorem mem_regla11 {t : Trabajo} {l : Linea} (h : l.code ∉ t.addedNoQty) :
    l ∈ (regla11 t).e.cart ↔ l ∈ t.e.cart := by
  unfold regla11
  split
  · rfl
  · next g _ =>
    refine foldl_keeps (P := fun u : Trabajo => l ∈ u.e.cart ↔ l ∈ t.e.cart) t.addedNoQty ?_
      Iff.rfl
    intro u c hc hu
    unfold regla11Linea
    split
    · exact hu
    · have hne : l.code ≠ c := fun heq => h (heq ▸ hc)
      exact (mem_ponQty_of_ne hne).trans hu

/-- A settled line leaves in pass 2 exactly when its code is in dispute. -/
theorem Asentada.mem_pase2 {t : Trabajo} {l : Linea} (h : Asentada t l) :
    l ∈ (pase2 t).e.cart ↔
      ¬ ∃ r ∈ t.seenAdds, 1 < (distintas r.2).length ∧ l.code = r.1 := by
  obtain ⟨hseen, hadded, -⟩ := reglaMedia_frame t
  have hcart : l ∈ (reglaMedia t).e.cart := by
    rw [reglaMedia_cart]
    exact h.1
  have hno : l.code ∉ (regla3 (reglaMedia t)).addedNoQty := by
    rw [regla3_addedNoQty, hadded]
    exact h.2
  have hpase : (pase2 t).e.cart = (regla11 (regla3 (reglaMedia t))).e.cart := rfl
  rw [hpase, mem_regla11 hno, mem_regla3 hcart, hseen]

/-! ## Whole turns -/

/-- A line leaves the cart, or changes, only on purpose. -/
def LineFrame (fm : Bool) (e : Estado) (g : Option ℤ) (ops : List Op) : Prop :=
  ∀ l ∈ e.cart, Ajena fm e g ops l.code → l ∈ (aplicar e ops fm g).estado.cart

/-- The frame holds exactly when no line the turn does not speak of has its code
requested with two different numbers. -/
theorem lineFrame_iff (fm : Bool) (e : Estado) (g : Option ℤ) (ops : List Op) :
    LineFrame fm e g ops ↔
      ∀ l ∈ e.cart, Ajena fm e g ops l.code → ¬ Disputada fm e g ops l.code := by
  have hline {l : Linea} (hl : l ∈ e.cart) (ha : Ajena fm e g ops l.code) :
      l ∈ (aplicar e ops fm g).estado.cart ↔ ¬ Disputada fm e g ops l.code := by
    rw [aplicar_estado, (tras_asentada hl ha).mem_pase2, suspendida_iff]
  constructor
  · intro h l hl ha
    exact (hline hl ha).mp (h l hl ha)
  · intro h l hl ha
    exact (hline hl ha).mpr (h l hl ha)

/-- Six kajal in the cart and the client asks for "2 kajal" and "3 kajal" more in one
message: the line of six is gone. -/
theorem disputed_line_leaves_the_cart :
    ¬ LineFrame false
      { orderStatus := .building, cart := [⟨"KJ401", 6, "KAJAL NEGRO INTENSO", "pedidos", []⟩] }
      none
      [.add "KJ401" "KAJAL NEGRO INTENSO" [] (some 2) "pedidos",
        .add "KJ401" "KAJAL NEGRO INTENSO" [] (some 3) "pedidos"] := by
  intro h
  have hajena : Ajena false
      { orderStatus := .building, cart := [⟨"KJ401", 6, "KAJAL NEGRO INTENSO", "pedidos", []⟩] }
      none
      [.add "KJ401" "KAJAL NEGRO INTENSO" [] (some 2) "pedidos",
        .add "KJ401" "KAJAL NEGRO INTENSO" [] (some 3) "pedidos"] "KJ401" := by
    intro xs op ys hops
    have hop : op ∈ [Op.add "KJ401" "KAJAL NEGRO INTENSO" [] (some 2) "pedidos",
        Op.add "KJ401" "KAJAL NEGRO INTENSO" [] (some 3) "pedidos"] := by
      rw [hops]
      simp
    rcases List.mem_pair.mp hop with rfl | rfl <;> exact id
  have hgone := h _ List.mem_cons_self hajena
  revert hgone
  decide

end Chatlink.Agent
