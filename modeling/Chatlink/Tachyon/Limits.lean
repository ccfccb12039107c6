import Chatlink.Lib.Transition
import Chatlink.Tachyon.Answering

/-!
# What holds in every run

Whatever is asked of the engine, in whatever order, and wherever it fails: the totals it counts
are within the limits it was given, and what is pinned stays in VRAM. No token is fed at a
position that the context does not have.
-/
namespace Chatlink.Tachyon

open Transition

/-- Loaded and pinned, in VRAM. -/
def Engine.Pinned (name : String) (e : Engine) : Prop :=
  (∃ m ∈ e.models, m.name = name ∧ m.load.pin = true ∧ m.resident = true) ∨
    ∃ h ∈ e.encoders, h.name = name ∧ h.pin = true

namespace Engine

instance (name : String) (e : Engine) : Decidable (e.Pinned name) :=
  inferInstanceAs (Decidable (_ ∨ _))

variable {vram host : ℕ} {limits : ℕ × ℕ} {e e' : Engine}

theorem inv_init (vram host : ℕ) : Inv (vram, host) (fun _ => False) { vram, host } := by
  refine ⟨⟨⟨Nat.zero_le _, Nat.zero_le _, fun m hm => ?_, List.nodup_nil⟩, rfl, fun i hi => ?_, fun j m _ hm => ?_,
    fun _ => False.elim, fun _ => False.elim, rfl⟩, fun s hs => ?_⟩
  · simp at hm
  · cases hi
  · simp at hm
  · cases hs

theorem inv_of_reachable (h : Reachable step Libre { vram, host } e) :
    Inv (vram, host) (fun _ => False) e :=
  h.invariant (inv_init vram host) fun _ _ _ _ hstep hinv => step_inv hstep hinv fun _ => False.elim

/-- What is pinned may be asked to stay. -/
theorem Inv.pinned {name : String} (h : Inv limits (fun _ => False) e) (hp : e.Pinned name) :
    Inv limits (fun n => n = name) e := by
  have hf := h.fine
  refine ⟨⟨hf.toSound, hf.limits, hf.loading, hf.resident, ?_, hf.absent, hf.stream⟩, h.streams⟩
  rintro n rfl
  refine hp.imp_left ?_
  rintro ⟨m, hm, hname, hpin, -⟩
  obtain ⟨j, hj⟩ := List.mem_iff_getElem?.mp hm
  exact ⟨j, m, nofun, hj, hname, hpin⟩

theorem Inv.stays {name : String} (h : Inv limits (fun n => n = name) e) : e.Pinned name := by
  refine (h.fine.stays name rfl).imp_left ?_
  rintro ⟨j, m, hj, hm, hname, hpin⟩
  exact ⟨m, List.mem_of_getElem? hm, hname, hpin, h.fine.resident j m hj hm hpin⟩

/-- What the engine counts is within its limits, towers are with models in VRAM, names are unique,
and a pinned model is in VRAM and stays there until it is unloaded or loaded again. -/
theorem residency (h : Reachable step Libre { vram, host } e) :
    e.used ≤ vram ∧ e.hosted ≤ host ∧
      (∀ m ∈ e.models, m.resident = false → m.vision = none ∧ m.audio = none) ∧
      (e.models.map Model.name ++ e.encoders.map Held.name).Nodup ∧
      (∀ m ∈ e.models, m.load.pin = true → m.resident = true) ∧
      ∀ name as e', e.Pinned name → (∀ a ∈ as, a.2.replaces ≠ some name) →
        run step e as = some e' → e'.Pinned name := by
  have hinv := inv_of_reachable h
  have hf := hinv.fine
  obtain ⟨hvram, hhost⟩ := Prod.mk.inj hf.limits
  refine ⟨hvram ▸ hf.vram, hhost ▸ hf.host, fun m hm => (hf.models m hm).towers, hf.names, ?_, ?_⟩
  · intro m hm hpin
    obtain ⟨j, hj⟩ := List.mem_iff_getElem?.mp hm
    exact hf.resident j m nofun hj hpin
  · intro name as e' hp has hrun
    have hend : Inv (vram, host) (fun n => n = name) e' := by
      apply run_invariant hrun (hinv.pinned hp)
      intro s a s' ha hstep hs
      apply step_inv hstep hs
      rintro n rfl
      exact has a ha
    exact hend.stays

/-- Directories that all hold a small model, whose tokenizer knows one word. -/
def shelf (now : ℕ) : World where
  now
  files := fun _ =>
    { encoder := .ok none
      tokenizer := .ok
        { specials := [0, 1, 2, 3]
          bytes := fun id => ["<bos>", "<|turn>", "<turn|>", "<|think|>"].getD id "?"
          encode := fun _ => [9]
          piece := fun _ => "hi"
          rest := fun _ => "" }
      template := none
      need := fun _ => .ok 4
      decoder := .ok (3, 1, 8)
      vision := none
      audio := none }
  squares := fun _ _ _ => 1
  sample := List.length
  alive := 100
  opens := true
  resumes := true
  trims := true
  runs := .ok ()

def hello : Request :=
  { messages := [{ role := .user, text := "hi" }], think := false, maxTokens := 100, keepAlive := none }

/-- Three models where there is room for two, the first pinned; the third answers. -/
def crowded : List (World × Op) :=
  [(shelf 1, .load "a" "/a" { pin := true }), (shelf 2, .load "b" "/b" {}),
    (shelf 3, .load "c" "/c" { settings := { context := 9 } }), (shelf 4, .chat "c" hello),
    (shelf 4, .nextText), (shelf 4, .nextText)]

/-- With the first model pinned, the second goes to make room for the third and comes back in its
place. -/
theorem residency_crowded : ∃ e e', run step { vram := 10, host := 8 } crowded = some e ∧
    run step e [(shelf 5, .drop), (shelf 6, .chat "b" hello)] = some e' ∧
    e.used ≤ 10 ∧ e.hosted ≤ 8 ∧ e'.Pinned "a" := by
  have hrun : ((run step { vram := 10, host := 8 } crowded).bind fun e =>
      (run step e [(shelf 5, .drop), (shelf 6, .chat "b" hello)]).map fun e' =>
        decide (e.Pinned "a")) = some true := by
    decide +kernel
  obtain ⟨e, he, hrun⟩ := Option.bind_eq_some_iff.mp hrun
  obtain ⟨e', he', hp⟩ := Option.map_eq_some_iff.mp hrun
  have hreach : Reachable step Libre { vram := 10, host := 8 } e :=
    Reachable.run .refl (fun _ _ _ => trivial) he
  obtain ⟨hvram, hhost, -, -, -, hpinned⟩ := residency hreach
  refine ⟨e, e', he, he', hvram, hhost, hpinned "a" _ e' (of_decide_eq_true hp) ?_ he'⟩
  decide

/-- No token is fed at the context or beyond it, the step that runs ahead included, and an answer
has no more tokens than the request allows and the prompt leaves. -/
theorem context_bound (h : Reachable step Libre { vram, host } e) :
    (∀ m ∈ e.models, ∀ d, m.place = .vram d → ∀ p ∈ d.fed, p.1 < m.load.settings.context) ∧
      ∀ s, e.stream = some s → ∃ m, e.models[s.model]? = some m ∧
        s.tokens ≤ min s.max (m.load.settings.context - e.prompt.length) := by
  have hinv := inv_of_reachable h
  refine ⟨fun m hm => (hinv.fine.models m hm).fed, fun s hs => ?_⟩
  obtain ⟨m, hm, hle⟩ := (hinv.streams s hs).allowed
  exact ⟨m, hm, (Nat.le_add_right _ _).trans hle⟩

/-- The answer that is generated, with its model and decoder. -/
def answering (e : Engine) : Option (TokenStream × Model × Decoder) := do
  let s ← e.stream
  let m ← e.models[s.model]?
  match m.place with
  | .vram d => some (s, m, d)
  | _ => none

theorem answering_eq_some {s : TokenStream} {m : Model} {d : Decoder}
    (h : e.answering = some (s, m, d)) :
    e.stream = some s ∧ e.models[s.model]? = some m ∧ m.place = .vram d := by
  obtain ⟨s', hs, h⟩ := Option.bind_eq_some_iff.mp h
  obtain ⟨m', hm, h⟩ := Option.bind_eq_some_iff.mp h
  cases hp : m'.place with
  | vram d' =>
    rw [hp] at h
    cases h
    exact ⟨hs, hm, hp⟩
  | host p => simp [hp] at h
  | disk => simp [hp] at h

/-- The answer fills the context, and the step on its last token is fed at the last position. -/
theorem context_bound_crowded : ∃ e s m d, run step { vram := 10, host := 8 } crowded = some e ∧
    e.answering = some (s, m, d) ∧ d.fed.getLast? = some (8, 8) ∧
    (∀ p ∈ d.fed, p.1 < m.load.settings.context) ∧ s.tokens = 2 ∧
    s.tokens ≤ min s.max (m.load.settings.context - e.prompt.length) := by
  have hrun : ((run step { vram := 10, host := 8 } crowded).bind fun e =>
      e.answering.map fun a => (a.1.tokens, a.2.2.fed.getLast?)) = some (2, some (8, 8)) := by
    decide +kernel
  obtain ⟨e, he, hrun⟩ := Option.bind_eq_some_iff.mp hrun
  obtain ⟨⟨s, m, d⟩, hanswer, hend⟩ := Option.map_eq_some_iff.mp hrun
  obtain ⟨htokens, hfed⟩ := Prod.mk.inj hend
  have hreach : Reachable step Libre { vram := 10, host := 8 } e :=
    Reachable.run .refl (fun _ _ _ => trivial) he
  obtain ⟨hbound, hproduced⟩ := context_bound hreach
  obtain ⟨hs, hm, hd⟩ := answering_eq_some hanswer
  obtain ⟨m', hm', hle⟩ := hproduced s hs
  obtain rfl := Option.some.inj (hm'.symm.trans hm)
  exact ⟨e, s, m', d, he, hanswer, hfed, hbound m' (List.mem_of_getElem? hm) d hd, htokens, hle⟩

end Engine

end Chatlink.Tachyon
