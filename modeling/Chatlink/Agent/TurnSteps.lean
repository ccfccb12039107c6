import Chatlink.Agent.ReducerSteps
import Chatlink.Agent.ResolverSteps
import Chatlink.Agent.Turn

/-!
# What reaches the reducer in a turn

The acts of a turn come from the lines of a list, from the extraction through the
filter, or from the structural rescue; the operations come from the resolver. The
inversion lemmas of `turnoDe` and `runAgent` say so once.
-/
namespace Chatlink.Agent

open Lists

variable {U : Unicode} {E : Entorno} {s : Sesion} {e : Estado} {mensaje : Texto}
  {extraccion : Option Json}

/-- The acts of the extraction that pass the filter. -/
def actosAceptados (U : Unicode) (mensaje : Texto) (extraccion : Option Json) : List Acto :=
  match comprende U mensaje extraccion with
  | .ok (some actos, _) => actos
  | _ => []

/-- The acts saved by their form alone. -/
def actosSalvados (U : Unicode) (e : Estado) (mensaje : Texto) : List Acto :=
  actosEstructurales U (Texto.orElse (preprocesar U mensaje).texto mensaje) e

theorem mem_reuneActos {lista salvados actos : List Acto} {extraidos : Option (List Acto)}
    {a : Acto} (h : reuneActos lista extraidos salvados = some actos) (ha : a ∈ actos) :
    a ∈ lista ∨ (∃ as, extraidos = some as ∧ a ∈ as) ∨ a ∈ salvados := by
  unfold reuneActos at h
  dsimp only at h
  generalize hsel : (if (extraidos.getD []).isEmpty && lista.isEmpty then
    if salvados.isEmpty then extraidos else some salvados else extraidos) = sel at h
  cases sel with
  | none =>
    dsimp only at h
    split at h
    · cases h
    · obtain rfl := Option.some.inj h
      exact Or.inl ha
  | some as =>
    obtain rfl := Option.some.inj h
    rcases List.mem_append.mp ha with ha | ha
    · exact Or.inl ha
    · right
      split at hsel
      · split at hsel
        · exact Or.inl ⟨as, hsel, ha⟩
        · obtain rfl := Option.some.inj hsel
          exact Or.inr ha
      · exact Or.inl ⟨as, hsel, ha⟩

/-- Where an act of the turn comes from. -/
theorem actosDelTurno_mem {actos : List Acto} {hablar : Bool} {a : Acto}
    (h : actosDelTurno U e mensaje extraccion = .ok (some actos, hablar)) (ha : a ∈ actos) :
    (∃ r ∈ (preprocesar U mensaje).pedidos, a = actoDeLista r) ∨
      a ∈ actosAceptados U mensaje extraccion ∨ a ∈ actosSalvados U e mensaje := by
  unfold actosDelTurno at h
  obtain ⟨⟨extraidos, habla⟩, hext, h⟩ := bind_eq_ok h
  have hreune := congrArg Prod.fst (Except.ok.inj h)
  rcases mem_reuneActos hreune ha with ha | ⟨as, has, ha⟩ | ha
  · obtain ⟨r, hr, rfl⟩ := List.mem_map.mp ha
    exact Or.inl ⟨r, hr, rfl⟩
  · refine Or.inr (Or.inl ?_)
    rw [actosAceptados, hext, has]
    exact ha
  · exact Or.inr (Or.inr ha)

/-- What a turn hands to the reducer: nothing but the state, or the operations of the
resolver for the acts of the turn. -/
theorem turnoDe_cases {t : Turno} (h : turnoDe U E s mensaje extraccion = .ok (.turno t)) :
    (t.estado = Estado.fromSession s ∧ t.ops = [] ∧ t.cantidadGlobal = none) ∨
      ∃ actos hablar, actosDelTurno U (Estado.fromSession s) mensaje extraccion =
          .ok (some actos, hablar) ∧
        resolver U E actos (Estado.fromSession s) = .ok (t.ops, t.estado) ∧
        t.fuenteMedia = (preprocesar U mensaje).fuenteMedia ∧
        t.cantidadGlobal = (preprocesar U mensaje).cantidadGlobal := by
  unfold turnoDe at h
  dsimp only at h
  split at h
  · cases h
  · obtain ⟨⟨actos, hablar⟩, hactos, h⟩ := bind_eq_ok h
    split at h
    · cases h
    · cases h
      exact Or.inl ⟨rfl, rfl, rfl⟩
    · next as hne heq =>
      obtain ⟨⟨ops, e'⟩, hres, h⟩ := bind_eq_ok h
      cases h
      cases heq
      exact Or.inr ⟨_, _, hactos, hres, rfl, rfl⟩

/-- The state a turn returns is that of the session, or what the reducer made of it. -/
theorem runAgent_cases {intro resume : Bool} {r : AgentResult}
    (h : runAgent U E s mensaje extraccion intro resume = .ok r) :
    r.estado = Estado.fromSession s ∨
      ∃ t, turnoDe U E s mensaje extraccion = .ok (.turno t) ∧ r.estado = t.resultado.estado := by
  unfold runAgent at h
  obtain ⟨d, hd, h⟩ := bind_eq_ok h
  cases d with
  | nada =>
    cases h
    exact Or.inl rfl
  | inferenceDown =>
    cases h
    exact Or.inl rfl
  | turno t =>
    cases h
    exact Or.inr ⟨t, hd, rfl⟩

/-- The items a turn writes are read back as they were. -/
theorem coerceOpenItem_tipado (items : List Item) :
    (items.map ItemGuardado.tipado).filterMap coerceOpenItem = items := by
  rw [List.filterMap_map]
  exact List.filterMap_some

def Desenlace.turno? : Desenlace → Option Turno
  | .turno t => some t
  | _ => none

/-- The state the reducer returns in a turn, if it runs. -/
def Desenlace.resultado? : Desenlace → Option Estado
  | .turno t => some t.resultado.estado
  | _ => none

theorem turno_of_resultado? {d : Except PyError Desenlace} {r : Estado}
    (h : d.toOption.bind Desenlace.resultado? = some r) :
    ∃ t, d = .ok (.turno t) ∧ t.resultado.estado = r := by
  cases d with
  | error err => cases h
  | ok d =>
    cases d with
    | turno t => exact ⟨t, rfl, Option.some.inj h⟩
    | nada => cases h
    | inferenceDown => cases h

/-- The locals after the first operations of a turn. -/
def Turno.tras (t : Turno) (xs : List Op) : Trabajo :=
  Agent.tras t.fuenteMedia t.estado t.cantidadGlobal xs

theorem Turno.tras_concat (t : Turno) (xs : List Op) (op : Op) :
    t.tras (xs ++ [op]) = paso t.fuenteMedia (t.tras xs) op :=
  Agent.tras_concat _ _ _ _ _

theorem Turno.resultado_estado (t : Turno) : t.resultado.estado = (pase2 (t.tras t.ops)).e :=
  aplicar_estado _ _ _ _

end Chatlink.Agent
