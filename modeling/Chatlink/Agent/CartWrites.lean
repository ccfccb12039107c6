import Chatlink.Agent.ReducerSteps

/-!
# When a step writes the cart

`Op.escribe` is read off the state before an operation and says whether the
operation changes a line; the locals of `aplicar` before pass 2 say the same of the
transversal rules. Both are exact, so "the cart stays as it is" can be settled
without running the reducer.
-/
namespace Chatlink.Agent

open Lists

/-! ## Reading a line after a write -/

section Lines

variable {cart : List Linea} {code c : Texto}

theorem find?_ponQty (q : ℤ) :
    (ponQty code q cart).find? (fun l => l.code = c) =
      if c = code then (cart.find? fun l => l.code = c).map fun l => { l with qty := q }
      else cart.find? fun l => l.code = c := by
  induction cart with
  | nil => simp [ponQty]
  | cons l cart ih =>
    by_cases hl : l.code = code
    · by_cases hc : c = code
      · simp [ponQty, hl, hc]
      · simp [ponQty, hl, hc, Ne.symm hc]
    · by_cases hc : l.code = c
      · have hcc : c ≠ code := fun h => hl (hc.trans h)
        simp [ponQty, hc, hcc]
      · simp only [ponQty, hl, if_false, List.find?_cons, hc, decide_false, ih]

theorem find?_filter_code :
    (cart.filter fun l => l.code ≠ code).find? (fun l => l.code = c) =
      if c = code then none else cart.find? fun l => l.code = c := by
  induction cart with
  | nil => simp
  | cons l cart ih =>
    by_cases hl : l.code = code
    · rw [List.filter_cons_of_neg (by simpa using hl), ih]
      by_cases hc : c = code
      · simp [hc]
      · simp [hc, hl, Ne.symm hc]
    · rw [List.filter_cons_of_pos (by simpa using hl)]
      by_cases hc : l.code = c
      · have hcc : c ≠ code := fun h => hl (hc.trans h)
        simp [hc, hcc]
      · simp only [List.find?_cons, hc, decide_false, ih]

theorem ponQty_eq_self_iff (q : ℤ) :
    ponQty code q cart = cart ↔ ∀ ln, cart.find? (fun l => l.code = code) = some ln → ln.qty = q := by
  induction cart with
  | nil => simp [ponQty]
  | cons l cart ih =>
    by_cases hl : l.code = code
    · simp only [ponQty, hl, if_true, List.find?_cons, decide_true, List.cons.injEq, and_true,
        Option.some.injEq, forall_eq']
      constructor
      · exact fun h => (congrArg Linea.qty h).symm
      · rintro rfl
        rw [← hl]
    · simp [ponQty, hl, ih]

theorem filter_code_eq_self_iff :
    (cart.filter fun l => l.code ≠ code) = cart ↔ cart.find? (fun l => l.code = code) = none := by
  simp

end Lines

/-! ## Pass 1 -/

/-- The operation changes a line of the cart. -/
def Op.escribe (fm : Bool) (e : Estado) : Op → Bool
  | .add code _ _ _ _ => !fm && (e.linea code).isNone
  | .modificar code _ modo valor conNumeral _ =>
    match e.linea code with
    | none => false
    | some ln =>
      if modo = .eliminar then !conNumeral
      else match valor with
        | none => false
        | some v =>
          modo ≠ .sinCambio && 0 < nuevaQty modo ln.qty v && nuevaQty modo ln.qty v ≠ ln.qty
  | .elige _ code _ _ _ => (e.linea code).isNone
  | .eligeQty code valor =>
    match e.conflictos.find? fun c => c.code = code with
    | none => false
    | some c => c.opcionesQty.contains valor &&
        match e.linea code with
        | none => true
        | some ln => ln.qty ≠ valor
  | .confirmar =>
    match e.siNoVivo with
    | none => false
    | some v => match v.tipo with
      | .cierre => false
      | .baja => (e.linea v.code).isSome
      | .media => v.items.any fun l => (e.linea l.code).isNone
      | .repetir => v.items.any fun l => (e.linea l.code).isNone
  | _ => false

section Add

variable (t : Trabajo) (code name brand : Texto) (qty : Option ℤ) (fuente aliasTexto : Texto)

theorem Trabajo.add_cart :
    (t.add code name brand qty fuente aliasTexto).e.cart =
      match t.e.linea code with
      | some _ => t.e.cart
      | none => t.e.cart ++ [⟨code, qty.getD 1, name, fuente, brand⟩] := by
  rcases t.add_cases code name brand qty fuente aliasTexto with
    ⟨ln, hln, -, h⟩ | ⟨ln, q, hln, -, -, h⟩ | ⟨hln, h⟩
  all_goals rw [h, hln]; rfl

theorem Trabajo.add_cart_iff :
    (t.add code name brand qty fuente aliasTexto).e.cart = t.e.cart ↔
      (t.e.linea code).isNone = false := by
  rw [Trabajo.add_cart]
  cases t.e.linea code <;> simp

end Add

theorem addLineas_cart_grows (fuente : Texto) (items : List Linea) (t : Trabajo) :
    t.e.cart <+: (items.foldl (Trabajo.addLinea fuente) t).e.cart := by
  refine foldl_keeps (P := fun u : Trabajo => t.e.cart <+: u.e.cart) _ (fun u l _ hu => ?_)
    (List.prefix_refl _)
  refine hu.trans ?_
  rw [Trabajo.addLinea, Trabajo.add_cart]
  split
  · exact List.prefix_refl _
  · exact List.prefix_append _ _

theorem addLineas_cart_iff (fuente : Texto) (items : List Linea) (t : Trabajo) :
    (items.foldl (Trabajo.addLinea fuente) t).e.cart = t.e.cart ↔
      items.any (fun l => (t.e.linea l.code).isNone) = false := by
  induction items generalizing t with
  | nil => simp
  | cons l items ih =>
    have hadd : (t.addLinea fuente l).e.cart = _ :=
      t.add_cart l.code l.name [] (some (orNum (some l.qty) 1)) fuente []
    rw [List.foldl_cons, List.any_cons]
    cases hl : t.e.linea l.code with
    | some ln =>
      rw [hl] at hadd
      dsimp only at hadd
      have hlin (c : Texto) : (t.addLinea fuente l).e.linea c = t.e.linea c := by
        simp only [Estado.linea, hadd]
      rw [← hadd, ih]
      simp [hlin]
    | none =>
      -- the first missing line makes the cart longer for good
      rw [hl] at hadd
      have hlen := (addLineas_cart_grows fuente items (t.addLinea fuente l)).length_le
      rw [hadd, List.length_append] at hlen
      constructor
      · intro h
        rw [h] at hlen
        simp at hlen
      · intro h
        simp at h

theorem setQty_cart_iff (t : Trabajo) (code name : Texto) {modo : Modo} (valor : Option ℤ) (b : Bool)
    (vn : Option ℤ) (fm : Bool) (hm : modo ≠ .eliminar) :
    (t.setQty code name modo valor).e.cart = t.e.cart ↔
      (Op.modificar code name modo valor b vn).escribe fm t.e = false := by
  rcases t.setQty_cases code name modo valor with
    ⟨hln, h⟩ | ⟨ln, hln, hv, h⟩ | ⟨ln, w, ⟨hln, v, rfl, hs, hn⟩, -, h⟩ |
      ⟨ln, ⟨hln, v, rfl, hs, hn⟩, -, h⟩ | ⟨ln, q, ⟨hln, v, rfl, hs, rfl, hq⟩, h⟩
  all_goals rw [h]
  · simp [Op.escribe, hln]
  · rcases hv with rfl | rfl
    · simp [Op.escribe, hln, hm]
    · cases valor <;> simp [Op.escribe, hln]
  · simp [Op.escribe, hln, hm, hn]
  · simp [Op.escribe, hln, hm, hn]
  · have hset : ponQty code (nuevaQty modo ln.qty v) t.e.cart = t.e.cart ↔
        ln.qty = nuevaQty modo ln.qty v := by
      rw [ponQty_eq_self_iff]
      have hln' : t.e.cart.find? (fun l => l.code = code) = some ln := hln
      simp [hln']
    simp only [Trabajo.emit, Trabajo.conEstado, hset]
    simp [Op.escribe, hln, hm, hs, hq, eq_comm (a := ln.qty)]

/-- One operation leaves the cart as it is exactly when it takes no writing branch. -/
theorem paso_cart_iff (fm : Bool) (t : Trabajo) (op : Op) :
    (paso fm t op).e.cart = t.e.cart ↔ op.escribe fm t.e = false := by
  cases op with
  | add code name brand qty fuente =>
    cases fm with
    | true => simp [paso, Op.escribe]
    | false =>
      simp only [paso, Bool.false_eq_true, if_false, Trabajo.add_cart_iff, Op.escribe]
      simp
  | modificar code name modo valor b vn =>
    by_cases hm : modo = .eliminar
    · cases hln : t.e.linea code with
      | none => simp [paso, Op.escribe, hm, hln]
      | some ln =>
        have hc := linea_code hln
        cases b with
        | true => simp [paso, Op.escribe, hm, hln]
        | false =>
          have hf : t.e.cart.find? (fun l => l.code = ln.code) ≠ none := by
            rw [hc]
            exact fun h => by simp [Estado.linea, h] at hln
          simp only [paso, Op.escribe, hm, hln, if_true, Bool.false_eq_true, if_false,
            Trabajo.emit, Trabajo.conEstado, filter_code_eq_self_iff, Bool.not_false,
            Bool.true_eq_false, iff_false]
          exact hf
    · simp only [paso, hm, if_false]
      exact setQty_cart_iff t code name valor b vn fm hm
  | elige itemTexto code name brand fuente =>
    simp only [paso, Op.escribe]
    split
    · exact Trabajo.add_cart_iff (t.quita _) code name brand _ fuente itemTexto
    · exact Trabajo.add_cart_iff t code name brand none fuente itemTexto
  | eligeQty code valor =>
    simp only [paso, Op.escribe]
    cases hk : t.e.conflictos.find? (fun c => c.code = code) with
    | none => simp
    | some c =>
      by_cases hv : valor ∈ c.opcionesQty
      · cases hln : t.e.linea code with
        | none =>
          have hln' : (t.quita (.conflicto c)).e.linea code = none := hln
          simp only [hv, if_true, hln']
          simp [Trabajo.enMarcha, hv]
        | some ln =>
          have hln' : (t.quita (.conflicto c)).e.linea code = some ln := hln
          have hfind : t.e.cart.find? (fun l => l.code = code) = some ln := hln
          simp only [hv, if_true, hln']
          simp [ponQty_eq_self_iff, hfind, hv]
      · simp [hv]
  | confirmar =>
    simp only [paso, Op.escribe]
    cases hv : t.e.siNoVivo with
    | none => simp
    | some v =>
      simp only [ejecuta]
      cases v.tipo with
      | cierre =>
        simp only [iff_true]
        exact (revision_quieto _ (t.quita (.siNo v))).cart
      | baja =>
        dsimp only
        cases hln : t.e.linea v.code with
        | none =>
          have hln' : (t.quita (.siNo v)).e.linea v.code = none := hln
          simp only [hln', Option.isSome_none, iff_true]
          rfl
        | some ln =>
          have hln' : (t.quita (.siNo v)).e.linea v.code = some ln := hln
          have hf : t.e.cart.find? (fun l => l.code = v.code) ≠ none :=
            fun h => by simp [Estado.linea, h] at hln
          simp only [hln', Option.isSome_some, Bool.true_eq_false, iff_false]
          exact fun h => hf (filter_code_eq_self_iff.mp h)
      | media => exact addLineas_cart_iff "media" v.items (t.quita (.siNo v))
      | repetir => exact addLineas_cart_iff "repetir" v.items (t.quita (.siNo v))
  | _ => exact iff_of_true (paso_quieto fm t rfl).cart rfl

/-! ## Pass 2 -/

namespace Trabajo

/-- Rule 3 takes a line out: its code was asked with two different numbers. -/
def suspende (t : Trabajo) : Prop :=
  ∃ r ∈ t.seenAdds, 1 < (distintas r.2).length ∧ (t.e.linea r.1).isSome

/-- Rule 11 rewrites a line that came without a number. -/
def iguala (t : Trabajo) : Prop :=
  ∃ g c ln, t.cantidadGlobal = some g ∧ c ∈ t.addedNoQty ∧ t.e.linea c = some ln ∧ ln.qty ≠ g

end Trabajo

theorem regla3Una_cart (t : Trabajo) (r : Texto × List (Option ℤ)) :
    (regla3Una t r).e.cart =
      if 1 < (distintas r.2).length then t.e.cart.filter fun l => l.code ≠ r.1 else t.e.cart := by
  unfold regla3Una
  dsimp only
  split <;> rfl

theorem regla3_cart (rs : List (Texto × List (Option ℤ))) (t : Trabajo) :
    (rs.foldl regla3Una t).e.cart = t.e.cart.filter fun l =>
      !rs.any fun r => 1 < (distintas r.2).length && l.code == r.1 := by
  induction rs generalizing t with
  | nil => simp
  | cons r rs ih =>
    rw [List.foldl_cons, ih, regla3Una_cart]
    split
    · next h =>
      rw [List.filter_filter]
      congr 1
      funext l
      by_cases hl : l.code = r.1 <;> simp [h, hl]
    · next h => simp [h]

theorem regla3_cart_iff (t : Trabajo) : (regla3 t).e.cart = t.e.cart ↔ ¬ t.suspende := by
  rw [regla3, regla3_cart, List.filter_eq_self]
  constructor
  · rintro h ⟨r, hr, hd, hs⟩
    obtain ⟨ln, hln⟩ := Option.isSome_iff_exists.mp hs
    have := h ln (mem_of_linea hln)
    simp only [Bool.not_eq_true', List.any_eq_false] at this
    exact this r hr (by simp [hd, linea_code hln])
  · intro h l hl
    simp only [Bool.not_eq_true', List.any_eq_false]
    intro r hr hd
    simp only [Bool.and_eq_true, decide_eq_true_eq, beq_iff_eq] at hd
    refine h ⟨r, hr, hd.1, ?_⟩
    rw [Estado.linea, List.find?_isSome]
    exact ⟨l, hl, by simpa using hd.2⟩

theorem regla3_addedNoQty (t : Trabajo) : (regla3 t).addedNoQty = t.addedNoQty := by
  refine foldl_component (f := Trabajo.addedNoQty) _ (fun t r _ => ?_) t
  unfold regla3Una
  dsimp only
  split <;> rfl

theorem regla3_cantidadGlobal (t : Trabajo) : (regla3 t).cantidadGlobal = t.cantidadGlobal := by
  refine foldl_component (f := Trabajo.cantidadGlobal) _ (fun t r _ => ?_) t
  unfold regla3Una
  dsimp only
  split <;> rfl

theorem regla11Linea_linea (g : ℤ) (t : Trabajo) (code c : Texto) :
    (regla11Linea g t code).e.linea c =
      if c = code then (t.e.linea c).map fun l => { l with qty := g } else t.e.linea c := by
  unfold regla11Linea
  split
  · next h =>
    by_cases hc : c = code
    · simp [hc, h]
    · simp [hc]
  · exact find?_ponQty g

/-- After rule 11 every line it looked at has the global quantity. -/
theorem regla11Lineas_qty (g : ℤ) (codes : List Texto) (t : Trabajo) {c : Texto} (hc : c ∈ codes)
    {ln : Linea} (h : (codes.foldl (regla11Linea g) t).e.linea c = some ln) : ln.qty = g := by
  induction codes using List.reverseRecOn with
  | nil => exact absurd hc List.not_mem_nil
  | append_singleton codes d ih =>
    rw [List.foldl_append, List.foldl_cons, List.foldl_nil, regla11Linea_linea] at h
    by_cases hd : c = d
    · rw [if_pos hd] at h
      obtain ⟨l, -, rfl⟩ := Option.map_eq_some_iff.mp h
      rfl
    · rw [if_neg hd] at h
      have hcm : c ∈ codes := by simpa [hd] using hc
      exact ih hcm h

theorem regla11Lineas_cart_iff (g : ℤ) (codes : List Texto) (t : Trabajo) :
    (codes.foldl (regla11Linea g) t).e.cart = t.e.cart ↔
      ∀ c ∈ codes, ∀ ln, t.e.linea c = some ln → ln.qty = g := by
  constructor
  · intro h c hc ln hln
    refine regla11Lineas_qty g codes t hc (c := c) ?_
    rw [Estado.linea, h]
    exact hln
  · intro h
    refine foldl_keeps (P := fun u : Trabajo => u.e.cart = t.e.cart) codes (fun u c hc hu => ?_) rfl
    have hlin : u.e.linea c = t.e.linea c := by simp only [Estado.linea, hu]
    unfold regla11Linea
    split
    · exact hu
    · next ln hln =>
      have hset : ponQty c g u.e.cart = u.e.cart :=
        (ponQty_eq_self_iff g).mpr fun l hl => h c hc l (hlin.symm.trans hl)
      exact hset.trans hu

theorem regla11_cart_iff (t : Trabajo) : (regla11 t).e.cart = t.e.cart ↔ ¬ t.iguala := by
  unfold regla11
  split
  · next h => simp [Trabajo.iguala, h]
  · next g h =>
    refine (regla11Lineas_cart_iff g t.addedNoQty t).trans ?_
    simp only [Trabajo.iguala, h, Option.some.injEq]
    constructor
    · rintro hall ⟨g', c, ln, rfl, hc, hln, hne⟩
      exact hne (hall c hc ln hln)
    · intro hno c hc ln hln
      by_contra hne
      exact hno ⟨g, c, ln, rfl, hc, hln, hne⟩

theorem reglaMedia_frame (t : Trabajo) :
    (reglaMedia t).seenAdds = t.seenAdds ∧ (reglaMedia t).addedNoQty = t.addedNoQty ∧
      (reglaMedia t).cantidadGlobal = t.cantidadGlobal := by
  unfold reglaMedia
  split
  · exact ⟨rfl, rfl, rfl⟩
  · dsimp only
    rcases t.nuevaSiNo_cases _ .media with ⟨v, -, he⟩ | ⟨-, he⟩ <;> rw [he] <;> exact ⟨rfl, rfl, rfl⟩

/-- Pass 2 leaves the cart as it is exactly when neither rule finds a line. -/
theorem pase2_cart_iff (t : Trabajo) :
    (pase2 t).e.cart = t.e.cart ↔ ¬ t.suspende ∧ ¬ t.iguala := by
  have hcart := reglaMedia_cart t
  obtain ⟨hseen, hadded, hglobal⟩ := reglaMedia_frame t
  have hlin (c : Texto) : (reglaMedia t).e.linea c = t.e.linea c := by
    simp only [Estado.linea, hcart]
  have hs : (reglaMedia t).suspende ↔ t.suspende := by simp only [Trabajo.suspende, hseen, hlin]
  have hpase : (pase2 t).e.cart = (regla11 (regla3 (reglaMedia t))).e.cart := rfl
  have hi (h3 : (regla3 (reglaMedia t)).e.cart = t.e.cart) :
      (regla3 (reglaMedia t)).iguala ↔ t.iguala := by
    simp only [Trabajo.iguala, regla3_addedNoQty, regla3_cantidadGlobal, hadded, hglobal,
      Estado.linea, h3]
  constructor
  · intro h
    -- rule 3 only removes lines and rule 11 keeps the codes, so the equality splits
    have h3 : (regla3 (reglaMedia t)).e.cart = t.e.cart := by
      have hlen : t.e.cart.length = (regla3 (reglaMedia t)).e.cart.length := by
        have hcodes := congrArg List.length (regla11_codes (regla3 (reglaMedia t)))
        rw [Estado.codes, Estado.codes, List.length_map, List.length_map, ← hpase, h] at hcodes
        exact hcodes
      rw [regla3, regla3_cart, hcart] at hlen ⊢
      exact List.filter_eq_self.mpr (List.length_filter_eq_length_iff.mp hlen.symm)
    refine ⟨hs.not.mp ((regla3_cart_iff _).mp (h3.trans hcart.symm)), ?_⟩
    exact (hi h3).not.mp ((regla11_cart_iff _).mp (h.trans h3.symm))
  · rintro ⟨h3, h11⟩
    have h3' := ((regla3_cart_iff _).mpr (hs.not.mpr h3)).trans hcart
    exact ((regla11_cart_iff _).mpr ((hi h3').not.mpr h11)).trans h3'

end Chatlink.Agent
