import Chatlink.Tachyon.Operations

/-!
# Answering

A chat brings its model and the towers it needs into VRAM, makes soft tokens of the media, feeds
the prompt and leaves an answer to be read. While the answer is read, its decoder is never
further than the tokens that may still come allow, and they are as many as the request and the
context leave.
-/
namespace Chatlink.Tachyon

open Std.Do
open Serve (F32)
open Lists (map_modify_of_eq)

set_option mvcgen.warning false

namespace Model

/-- A model that stays in VRAM and may get towers. -/
structure Grown (m m' : Model) : Prop where
  same : m' = { m with place := m'.place, vision := m'.vision, audio := m'.audio }
  vision : ∀ v, m.vision = some v → m'.vision = some v
  audio : ∀ t, m.audio = some t → m'.audio = some t

/-- What `s` is made of, by the towers of `m`. -/
def Made (w : World) (m : Model) : Medium → List F32 → Prop
  | .image i, s => ∃ v, m.vision = some v ∧ v.softTokens w.squares i m.load.budget = .ok s
  | .clip a, s => ∃ t, m.audio = some t ∧ t.softTokens a = .ok s

variable {m m' : Model} {w : World} {stays : Prop}

theorem Aged.grown (h : Aged stays m m') (hs : stays) : m.Grown m' := by
  obtain ⟨-, hv, ha⟩ := h.kept (.inl hs)
  exact ⟨h.same, fun v => hv.trans, fun t => ha.trans⟩

theorem Made.grown {x : Medium} {s : List F32} (h : m.Grown m') (hmade : m.Made w x s) :
    m'.Made w x s := by
  have hload : m'.load = m.load := by rw [h.same]
  cases x with
  | image i =>
    obtain ⟨v, hv, hs⟩ := hmade
    exact ⟨v, h.vision v hv, by rw [hload]; exact hs⟩
  | clip a =>
    obtain ⟨t, ht, hs⟩ := hmade
    exact ⟨t, h.audio t ht, hs⟩

end Model

namespace Engine

variable {e e' : Engine} {i : ℕ} {m : Model} {k : Plan} {w : World} {R : Model → Prop}

/-! ### Towers -/

/-- Model `i` is in VRAM, and `R` holds of it. -/
def Here (i : ℕ) (R : Model → Prop) (e : Engine) : Prop :=
  ∃ m, e.models[i]? = some m ∧ m.resident = true ∧ R m

theorem steady_here (hR : ∀ (stays : Prop) m m', stays → Model.Aged stays m m' → R m → R m') :
    Steady (some i) (Here i R) := by
  rintro e e' hroom ⟨m, hm, hr, hm'⟩
  have hmodel := hroom.models i
  rw [hm] at hmodel
  generalize hfound : e'.models[i]? = found at hmodel
  cases hmodel with
  | some haged =>
    exact ⟨_, hfound, (haged.kept (.inl rfl)).1.trans hr, hR _ m _ rfl haged hm'⟩

/-- A model in VRAM gets a tower, where there is room for it. -/
theorem Fine.tower {f : Model → Model} {bytes : ℕ} (hf : Fine k e) (h : e.models[i]? = some m)
    (hr : m.resident = true) (hsame : f m = { m with vision := (f m).vision, audio := (f m).audio })
    (hmarks : ((f m).vision ≠ none → m.chat.image ≠ none) ∧ ((f m).audio ≠ none → m.chat.audio ≠ none))
    (htowers : (f m).towers = m.towers + bytes) (hfits : e.used + bytes ≤ e.vram) :
    Fine k (e.modifyModel i f) := by
  have hok := hf.models m (List.mem_of_getElem? h)
  have hplace : (f m).place = m.place := by rw [hsame]
  have hr' : (f m).resident = m.resident := by simp [Model.resident, hplace]
  have hbecomes : m.Becomes (f m) := by
    refine ⟨⟨fun hnot => ?_, ?_, ?_, ?_, ?_⟩, by rw [hsame], by rw [hsame], fun _ _ => hr'.trans hr⟩
    · rw [hr', hr] at hnot
      cases hnot
    · have hchat : (f m).chat = m.chat := by rw [hsame]
      rw [hchat]
      exact hmarks
    · rw [hplace]
      exact hok.copied
    · rw [hplace, hsame]
      exact hok.fed
    · rw [hsame]
      exact hok.chat
  apply hf.modify h hbecomes
  · have hneed : (f m).need = m.need := by rw [hsame]
    simp only [Model.cost, htowers, hr', hneed]
    omega
  · have hheld : (f m).held = m.held := by simp [Model.held, hplace]
    rw [hheld]
    exact Nat.add_le_add_right hf.host _

theorem here_modify {f : Model → Model} (h : e.models[i]? = some m)
    (hr : (f m).resident = true) (hR : R (f m)) : Here i R (e.modifyModel i f) := by
  refine ⟨f m, ?_, hr, hR⟩
  rw [getElem?_modifyModel, if_pos rfl, h]
  rfl

theorem Here.of_getElem? (h : Here i R e) (hm : e.models[i]? = some m) :
    m.resident = true ∧ R m := by
  obtain ⟨m', hm', hr, hR⟩ := h
  obtain rfl := Option.some.inj (hm'.symm.trans hm)
  exact ⟨hr, hR⟩

theorem vision_spec (hR : ∀ m m', m.Grown m' → R m → R m') (i : ℕ) :
    ⦃fun e => ⌜Fine k e ∧ Here i R e⌝⦄ vision w i
    ⦃post⟨fun v e => ⌜Fine k e ∧ Here i (fun m => R m ∧ m.vision = some v) e⌝,
      fun _ e => ⌜Fine k e⌝⟩⦄ := by
  have hsteady : Steady (some i) (Here i fun m => R m ∧ m.vision = none ∧ m.chat.image ≠ none) := by
    apply steady_here
    intro _ m m' hs haged h
    refine ⟨hR m m' (haged.grown hs) h.1, (haged.kept (.inl hs)).2.1.trans h.2.1, ?_⟩
    rw [haged.same]
    exact h.2.2
  have hroom := room_spec (k := k) hsteady
  mvcgen [vision, model, MonadExcept.ofExcept, hroom]
  · rename_i e h m hm v hv
    obtain ⟨hr, hm'⟩ := h.2.of_getElem? hm
    exact ⟨h.1, m, hm, hr, hm', hv⟩
  · rename_i e h m hm hv _ _ himage _ _ _
    obtain ⟨hr, hm'⟩ := h.2.of_getElem? hm
    refine ⟨h.1, m, hm, hr, hm', hv, fun hnone => ?_⟩
    simp [Chat.imageToken, hnone] at himage
  · rename_i v _ _ e h _
    obtain ⟨hf, ⟨m, hm, hr, hm', hv, himage⟩, hfits⟩ := h
    have hmarks := (hf.models m (List.mem_of_getElem? hm)).marks
    refine ⟨hf.tower hm hr rfl ⟨fun _ => himage, hmarks.2⟩ ?_ hfits,
      here_modify hm hr ⟨hR m _ ⟨rfl, ?_, fun _ ht => ht⟩ hm', rfl⟩⟩
    · simp [Model.towers, hv, Nat.add_comm]
    · rw [hv]
      intro _ hnone
      cases hnone
  · exact fun hf _ => hf
  · rename_i h _ _ _ _ _ _ _ _ _
    exact h.1
  · rename_i h _ _ _ _ _ _ _ _
    exact h.1
  · rename_i h _
    exact h.1

theorem hearing_spec (hR : ∀ m m', m.Grown m' → R m → R m') (i : ℕ) :
    ⦃fun e => ⌜Fine k e ∧ Here i R e⌝⦄ hearing w i
    ⦃post⟨fun t e => ⌜Fine k e ∧ Here i (fun m => R m ∧ m.audio = some t) e⌝,
      fun _ e => ⌜Fine k e⌝⟩⦄ := by
  have hsteady : Steady (some i) (Here i fun m => R m ∧ m.audio = none ∧ m.chat.audio ≠ none) := by
    apply steady_here
    intro _ m m' hs haged h
    refine ⟨hR m m' (haged.grown hs) h.1, (haged.kept (.inl hs)).2.2.trans h.2.1, ?_⟩
    rw [haged.same]
    exact h.2.2
  have hroom := room_spec (k := k) hsteady
  mvcgen [hearing, model, MonadExcept.ofExcept, hroom]
  · rename_i e h m hm t ht
    obtain ⟨hr, hm'⟩ := h.2.of_getElem? hm
    exact ⟨h.1, m, hm, hr, hm', ht⟩
  · rename_i e h m hm ht _ _ haudio _ _ _
    obtain ⟨hr, hm'⟩ := h.2.of_getElem? hm
    refine ⟨h.1, m, hm, hr, hm', ht, fun hnone => ?_⟩
    simp [Chat.audioToken, hnone] at haudio
  · rename_i t _ _ e h _
    obtain ⟨hf, ⟨m, hm, hr, hm', ht, haudio⟩, hfits⟩ := h
    have hmarks := (hf.models m (List.mem_of_getElem? hm)).marks
    refine ⟨hf.tower hm hr rfl ⟨hmarks.1, fun _ => haudio⟩ ?_ hfits,
      here_modify hm hr ⟨hR m _ ⟨rfl, fun _ hv => hv, ?_⟩ hm', rfl⟩⟩
    · simp [Model.towers, ht]
    · rw [ht]
      intro _ hnone
      cases hnone
  · exact fun hf _ => hf
  · rename_i h _ _ _ _ _ _ _ _ _
    exact h.1
  · rename_i h _ _ _ _ _ _ _ _
    exact h.1
  · rename_i h _
    exact h.1

/-! ### Media -/

theorem media_spec (ms : List Medium) (hR : ∀ m m', m.Grown m' → R m → R m') (i : ℕ) :
    ⦃fun e => ⌜Fine k e ∧ Here i R e⌝⦄ media w i ms
    ⦃post⟨fun soft e => ⌜Fine k e ∧ Here i (fun m => R m ∧ List.Forall₂ (m.Made w) ms soft) e⌝,
      fun _ e => ⌜Fine k e⌝⟩⦄ := by
  induction ms generalizing R with
  | nil =>
    mvcgen [media]
    rename_i h
    obtain ⟨hf, m, hm, hr, hm'⟩ := h
    exact ⟨hf, m, hm, hr, hm', .nil⟩
  | cons x rest ih =>
    cases x with
    | image image =>
      have hvision := @vision_spec k w R hR i
      have hrest := fun s => @ih (fun m => R m ∧ m.Made w (.image image) s) fun m m' hg h =>
        ⟨hR m m' hg h.1, h.2.grown hg⟩
      mvcgen [media, hvision, hrest, model, MonadExcept.ofExcept]
      · rename_i e h m hm s hs
        obtain ⟨hr, hm', hv⟩ := h.2.of_getElem? hm
        exact ⟨h.1, m, hm, hr, hm', _, hv, hs⟩
      · rename_i e h
        obtain ⟨hf, m, hm, hr, ⟨hm', hmade⟩, hrest⟩ := h
        exact ⟨hf, m, hm, hr, hm', .cons hmade hrest⟩
      · rename_i h _ _ _ _
        exact h.1
      · rename_i h _
        exact h.1
    | clip clip =>
      have hhearing := @hearing_spec k w R hR i
      have hrest := fun s => @ih (fun m => R m ∧ m.Made w (.clip clip) s) fun m m' hg h =>
        ⟨hR m m' hg h.1, h.2.grown hg⟩
      mvcgen [media, hhearing, hrest, model, MonadExcept.ofExcept]
      · rename_i e h s hs
        obtain ⟨hf, m, hm, hr, hm', ht⟩ := h
        exact ⟨hf, m, hm, hr, hm', _, ht, hs⟩
      · rename_i e h
        obtain ⟨hf, m, hm, hr, ⟨hm', hmade⟩, hrest⟩ := h
        exact ⟨hf, m, hm, hr, hm', .cons hmade hrest⟩
      · rename_i h _ _
        exact h.1

/-! ### The prompt -/

/-- The prompt of a request is there, shorter than model `i`'s context. -/
def Prompted (w : World) (i : ℕ) (req : Request) (e : Engine) : Prop :=
  Here i (fun m => e.prompt = m.chat.encode m.tok w.squares req.messages req.think ∧
    e.prompt.length < m.load.settings.context) e

theorem encode_spec (req : Request) (soft : List (List F32)) (i : ℕ) :
    ⦃fun e => ⌜Fine k e ∧ Here i R e⌝⦄ encode w i req soft
    ⦃post⟨fun _ e => ⌜Fine k e ∧ Prompted w i req e⌝, fun _ e => ⌜Fine k e⌝⟩⦄ := by
  have hprompt : ∀ e prompt, Fine k e → Fine k { e with prompt } := by
    intro e prompt hf
    exact ⟨⟨hf.vram, hf.host, hf.models, hf.names⟩, hf.limits, hf.loading, hf.resident, hf.stays,
      hf.absent, hf.stream⟩
  mvcgen [encode, model, MonadExcept.ofExcept]
  · rename_i h _ _ _ _ _ _
    exact hprompt _ _ h.1
  · rename_i e h m hm _ _ _ hlt _ _
    exact ⟨hprompt _ _ h.1, m, hm, (h.2.of_getElem? hm).1, rfl, not_le.mp hlt⟩
  · rename_i h _ _ _ _ _ _ _ _
    exact hprompt _ _ h.1
  · rename_i h _
    exact h.1

theorem encode_ne_nil (c : Chat) (tok : Tokenizer) (squares : Squares) (ms : List Message)
    (think : Bool) : c.encode tok squares ms think ≠ [] := by
  simp [Chat.encode, Chat.emit, Chat.mark]

/-! ### The answer -/

/-- The tokens of an answer, and those that may still come, are no more than the request and the
context leave. -/
def Allowed (s : TokenStream) (e : Engine) : Prop :=
  ∃ m, e.models[s.model]? = some m ∧
    s.tokens + s.left ≤ min s.max (m.load.settings.context - e.prompt.length)

/-- An answer's decoder has room for the tokens that may still come. A token that is known already
has been fed. -/
structure Streams (s : TokenStream) (e : Engine) : Prop where
  allowed : Allowed s e
  decoder : 0 < s.left → Runs s.model (fun n c d => d.Next n c (n + s.next.isSome.toNat - s.left)) e

/-- What holds of the engine between operations. -/
structure Inv (limits : ℕ × ℕ) (P : String → Prop) (e : Engine) : Prop where
  fine : Fine { limits, stays := P, stream := e.stream } e
  streams : ∀ s, e.stream = some s → Streams s e

variable {limits : ℕ × ℕ} {P : String → Prop} {s : TokenStream}

theorem Fine.inv (hf : Fine { limits, stays := P } e) : Inv limits P e := by
  refine ⟨?_, fun s hs => ?_⟩
  · rw [hf.stream]
    exact hf
  · rw [hf.stream] at hs
    cases hs

theorem Fine.setStream (hf : Fine { limits, stays := P, stream := e.stream } e) (s : Option TokenStream) :
    Fine { limits, stays := P, stream := s } { e with stream := s } :=
  ⟨⟨hf.vram, hf.host, hf.models, hf.names⟩, hf.limits, hf.loading, hf.resident, hf.stays, hf.absent,
    rfl⟩

/-- An answer begins with its first token, whose step has been queued. -/
theorem Fine.answer {first : ℕ} {prompt : List ℕ} (keep : Option ℕ) (max : ℕ)
    (hf : Fine { limits, stays := P } e) (hm : e.models[i]? = some m) (hprompt : e.prompt = prompt)
    (hruns : Runs i (fun n c d => d.At n c (prompt.length + 1)) e) :
    Inv limits P { e with stream := some { model := i, keep, max, next := some first, left := min max (m.load.settings.context - prompt.length) } } := by
  refine ⟨Fine.setStream (hf.stream ▸ hf) _, fun s hs => ?_⟩
  obtain rfl := Option.some.inj hs
  refine ⟨⟨m, hm, ?_⟩, fun hleft m' hm' d hd => .inl ((hruns m' hm' d hd).mono ?_)⟩
  · change 0 + _ ≤ min max (m.load.settings.context - e.prompt.length)
    rw [Nat.zero_add, hprompt]
  · obtain rfl := Option.some.inj (hm.symm.trans hm')
    have hle := min_le_right max (m.load.settings.context - prompt.length)
    change 0 < min max (m.load.settings.context - prompt.length) at hleft
    change _ ≤ m.load.settings.context + 1 - min max (m.load.settings.context - prompt.length)
    omega

theorem chat_spec (name : String) (req : Request) :
    ⦃fun e => ⌜Fine { limits, stays := P } e⌝⦄ chat w name req
    ⦃post⟨fun _ e => ⌜Inv limits P e⌝, fun _ e => ⌜Inv limits P e⌝⟩⦄ := by
  have hexpire := @expire_spec { limits, stays := P } w
  have hresident := @resident_spec { limits, stays := P } w
  have hmedia := fun i => @media_spec { limits, stays := P } w (fun _ => True) (shown req.messages)
    (fun _ _ _ h => h) i
  have hencode := fun i soft => @encode_spec { limits, stays := P } w
    (fun m => True ∧ List.Forall₂ (m.Made w) (shown req.messages) soft) req soft i
  have hfeed := fun i prompt places => onDecoder_spec (k := { limits, stays := P }) (i := i)
    (y := Decoder.feed w.sample prompt places)
    (A := fun n c d => (prompt ≠ [] ∧ prompt.length < n) ∧ d.Within n c)
    (B := fun n c d => d.At n c (prompt.length + 1)) (E := fun n c d => d.Within n c)
    (Q := fun e => e.prompt = prompt)
    (fun n c d hd => Decoder.feed_spec prompt places hd.1.1 hd.1.2 d hd.2)
    (fun _ _ _ h => h.2.2) (fun _ _ _ h => h) (fun _ _ h => h)
  mvcgen [chat, hexpire, hresident, hmedia, hencode, hfeed, model]
  · exact ‹Fine _ _›.inv
  · rename_i h
    obtain ⟨hf, m, hm, hr⟩ := h
    exact ⟨hf, m, hm, hr, trivial⟩
  · rename_i e h _
    obtain ⟨hf, m, hm, hr, hprompt, hlt⟩ := h
    refine ⟨hf, rfl, fun m' hm' d hd => ⟨⟨?_, ?_⟩, ?_, rfl⟩⟩
    · change e.prompt ≠ []
      rw [hprompt]
      exact encode_ne_nil _ _ _ _ _
    · obtain rfl := Option.some.inj (hm.symm.trans hm')
      exact hlt
    · exact (hf.models m' (List.mem_of_getElem? hm')).fed d hd
  · rename_i first e h m hm _
    exact h.1.answer _ _ hm h.2.1 h.2.2
  · rename_i h _
    exact h.1.inv
  · exact fun hf _ _ => hf.inv
  · exact Fine.inv
  · exact Fine.inv
  · exact Fine.inv
  · exact Fine.inv

theorem Allowed.left_le (h : Allowed s e) (hm : e.models[s.model]? = some m) :
    s.left ≤ m.load.settings.context := by
  obtain ⟨m', hm', hle⟩ := h
  obtain rfl := Option.some.inj (hm'.symm.trans hm)
  have hright := hle.trans (min_le_right _ _)
  omega

/-- One more of the tokens that may come has come. -/
theorem Allowed.next (h : Allowed s e) (hleft : 0 < s.left) :
    Allowed { s with next := none, left := s.left - 1, tokens := s.tokens + 1 } e := by
  obtain ⟨m, hm, hle⟩ := h
  refine ⟨m, hm, le_trans ?_ hle⟩
  change s.tokens + 1 + (s.left - 1) ≤ s.tokens + s.left
  omega

theorem settled_allowed (s : TokenStream) : Settled s.model (Allowed s) := by
  rintro e d ⟨m, hm, hle⟩
  refine ⟨{ m with place := .vram d }, ?_, hle⟩
  rw [getElem?_modifyModel, if_pos rfl, hm]
  rfl

/-- The next token was read, and the step on it is queued; or none will be. -/
theorem nextToken_spec (hleft : 0 < s.left) :
    ⦃fun e => ⌜Fine { limits, stays := P, stream := some s } e ∧ Streams s e⌝⦄ nextToken w s
    ⦃post⟨fun _ e => ⌜Fine { limits, stays := P, stream := e.stream } e ∧
        Streams { s with next := none, left := s.left - 1, tokens := s.tokens + 1 } e⌝,
      fun _ e => ⌜Inv limits P e⌝⟩⦄ := by
  cases hnext : s.next with
  | some t =>
    unfold nextToken
    rw [hnext]
    mvcgen
    rename_i e h _
    obtain ⟨hf, hstreams⟩ := h
    refine ⟨Fine.setStream (hf.stream ▸ hf) _, hstreams.allowed.next hleft, fun _ m hm d hd => ?_⟩
    apply (hstreams.decoder hleft m hm d hd).mono
    rw [hnext]
    change _ + 1 - _ ≤ _ + 0 - (s.left - 1)
    omega
  | none =>
    have hon := onDecoder_spec (k := { limits, stays := P, stream := some s }) (i := s.model)
      (y := Decoder.nextToken w.sample) (A := fun n c d => s.left ≤ n ∧ d.Next n c (n - s.left))
      (B := fun n c d => d.At n c (n - s.left + 1)) (E := fun n c d => d.Stuck n c)
      (fun n c d hd => Decoder.nextToken_spec (Nat.sub_lt (hleft.trans_le hd.1) hleft) d hd.2)
      (fun _ _ _ h => h.2.2) (fun _ _ _ h => h.2) (settled_allowed s)
    unfold nextToken
    rw [hnext]
    mvcgen [hon]
    · rename_i e h
      obtain ⟨hf, hstreams⟩ := h
      refine ⟨hf, hstreams.allowed, fun m hm d hd => ⟨hstreams.allowed.left_le hm, ?_⟩⟩
      have hdecoder := hstreams.decoder hleft m hm d hd
      rw [hnext] at hdecoder
      exact hdecoder
    · intro hf hallowed hruns
      refine ⟨hf.stream ▸ hf, hallowed.next hleft, fun _ m hm d hd => .inl ((hruns m hm d hd).mono ?_)⟩
      have hle := hallowed.left_le hm
      change _ ≤ _ + 0 - (s.left - 1)
      omega
    · intro hf hallowed hruns
      refine ⟨hf.stream ▸ hf, fun s' hs' => ?_⟩
      obtain rfl := Option.some.inj (hf.stream.symm.trans hs')
      exact ⟨hallowed, fun _ m hm d hd => .inr (hruns m hm d hd)⟩

theorem inv_setStream (hf : Fine { limits, stays := P, stream := e.stream } e) (hs : Streams s e) :
    Inv limits P (setStream s e) := by
  refine ⟨hf.setStream _, fun s' hs' => ?_⟩
  obtain rfl := Option.some.inj hs'
  exact ⟨hs.allowed, hs.decoder⟩

theorem readTokens_spec (fuel : ℕ) :
    ⦃fun e => ⌜Inv limits P e⌝⦄ readTokens w fuel
    ⦃post⟨fun _ e => ⌜Inv limits P e⌝, fun _ e => ⌜Inv limits P e⌝⟩⦄ := by
  induction fuel with
  | zero => mvcgen [readTokens]
  | succ fuel ih =>
    have hnext := fun (s : TokenStream) (h : 0 < s.left) => @nextToken_spec w limits P s h
    mvcgen [readTokens, ih, model, hnext]
    · rename_i h _ _
      exact h.2
    · rename_i e hinv s hs _ _ _
      exact ⟨hs ▸ hinv.fine, hinv.streams s hs⟩
    · rename_i token _ e h _
      obtain ⟨hf, hstreams⟩ := h
      obtain ⟨m, hm, hle⟩ := hstreams.allowed
      refine inv_setStream hf ⟨⟨m, hm, le_trans ?_ hle⟩, fun h => absurd h (lt_irrefl 0)⟩
      dsimp only
      omega
    · rename_i token _ e h _
      exact inv_setStream h.1 ⟨h.2.allowed, h.2.decoder⟩

theorem nextText_spec :
    ⦃fun e => ⌜Inv limits P e⌝⦄ nextText w
    ⦃post⟨fun _ e => ⌜Inv limits P e⌝, fun _ e => ⌜Inv limits P e⌝⟩⦄ := by
  have hread := @readTokens_spec w limits P
  mvcgen [nextText, hread, model]
  · rename_i e hinv s hs _
    have hstreams := hinv.streams s hs
    exact inv_setStream hinv.fine ⟨hstreams.allowed, hstreams.decoder⟩
  · rename_i e hinv s hs m hm text _
    have hstreams := hinv.streams s hs
    exact inv_setStream hinv.fine ⟨hstreams.allowed, hstreams.decoder⟩

/-- An answer has ended, and its model is kept from now on. -/
theorem Fine.ended (hf : Fine { limits, stays := P, stream := some s } e) (i now : ℕ)
    (keep : Option ℕ) :
    Fine { limits, stays := P } { e.modifyModel i (fun m => m.touch now keep) with stream := none } := by
  have htouch : Fine { limits, stays := P, stream := some s } (e.modifyModel i fun m => m.touch now keep) := by
    cases hm : e.models[i]? with
    | none =>
      rw [modifyModel_of_none hm]
      exact hf
    | some m =>
      have hok := hf.models m (List.mem_of_getElem? hm)
      apply hf.modify hm ⟨⟨hok.towers, hok.marks, hok.copied, hok.fed, hok.chat⟩, rfl, rfl, fun _ hr => hr⟩
      · exact Nat.add_le_add_right hf.vram _
      · exact Nat.add_le_add_right hf.host _
  exact Fine.setStream (htouch.stream ▸ htouch) none

theorem dropStream_spec :
    ⦃fun e => ⌜Inv limits P e⌝⦄ dropStream w
    ⦃post⟨fun _ e => ⌜Inv limits P e⌝, fun _ e => ⌜Inv limits P e⌝⟩⦄ := by
  have hstop : ∀ s i, ⦃fun e => ⌜Fine { limits, stays := P, stream := some s } e⌝⦄
      onDecoder i Decoder.stop
      ⦃post⟨fun _ e => ⌜Fine { limits, stays := P, stream := some s } e⌝,
        fun _ e => ⌜Fine { limits, stays := P, stream := some s } e⌝⟩⦄ := by
    intro s i
    have hstop := @stop_spec i { limits, stays := P, stream := some s } (fun _ => True) fun _ _ h => h
    simp only [and_true] at hstop
    exact hstop
  have hexpire := @expire_spec { limits, stays := P } w
  mvcgen [dropStream, hstop, hexpire]
  · rename_i e hinv s hs
    exact hs ▸ hinv.fine
  · rename_i hf _ _
    exact hf.ended _ _ _
  · exact Fine.inv
  · rename_i hf
    exact hf.inv
  · rename_i hf _ _
    exact hf.ended _ _ _
  · exact Fine.inv
  · rename_i hf
    exact hf.inv

/-! ### Every operation -/

/-- An encoder's keep-alive starts again. -/
theorem Fine.kept (hf : Fine k e) {f : Held → Held} (hname : ∀ h, (f h).name = h.name)
    (hbytes : ∀ h, (f h).bytes = h.bytes) (hpin : ∀ h, (f h).pin = h.pin) (j : ℕ) :
    Fine k { e with encoders := e.encoders.modify j f } := by
  have hnames := map_modify_of_eq hname e.encoders j
  have hpinned : ∀ n, (∃ h ∈ e.encoders.modify j f, h.name = n ∧ h.pin = true) ↔
      ∃ h ∈ e.encoders, h.name = n ∧ h.pin = true := by
    intro n
    have hview := map_modify_of_eq (g := fun h => (h.name, h.pin))
      (fun h => Prod.ext (hname h) (hpin h)) e.encoders j
    have hmem : ∀ hs : List Held, (∃ h ∈ hs, h.name = n ∧ h.pin = true) ↔
        (n, true) ∈ hs.map fun h => (h.name, h.pin) := by simp
    rw [hmem, hmem, hview]
  refine ⟨⟨?_, hf.host, hf.models, ?_⟩, hf.limits, hf.loading, hf.resident, fun n hn => ?_, fun n hn => ?_,
    hf.stream⟩
  · have hvram := hf.vram
    rw [used_eq] at hvram ⊢
    rw [map_modify_of_eq hbytes]
    exact hvram
  · rw [hnames]
    exact hf.names
  · exact (hf.stays n hn).imp_right (hpinned n).mpr
  · rw [hnames]
    exact hf.absent n hn

theorem runEncoder_spec (name : String) :
    ⦃fun e => ⌜Fine k e⌝⦄ runEncoder w name
    ⦃post⟨fun _ e => ⌜Fine k e⌝, fun _ e => ⌜Fine k e⌝⟩⦄ := by
  have hexpire := @expire_spec k w
  have hkept : ∀ e j, Fine k e → Fine k { e with
      encoders := e.encoders.modify j fun h => { h with until_ := h.keep.map (w.now + ·) } } := by
    intro e j hf
    apply hf.kept
    all_goals exact fun _ => rfl
  mvcgen [runEncoder, hexpire, MonadExcept.ofExcept]
  · exact hkept _ _ ‹Fine k _›
  · exact hkept _ _ ‹Fine k _›

end Engine

/-- The name an operation unloads, or loads again. -/
def Op.replaces : Op → Option String
  | .load name _ _ | .unload name => some name
  | _ => none

variable {limits : ℕ × ℕ} {P : String → Prop}

theorem Op.run_spec (w : World) (op : Op) (hP : ∀ n, P n → op.replaces ≠ some n) :
    ⦃fun e => ⌜e.Inv limits P ∧ op.onStream = e.stream.isSome⌝⦄ op.run w
    ⦃post⟨fun _ e => ⌜e.Inv limits P⌝, fun _ e => ⌜e.Inv limits P⌝⟩⦄ := by
  have hfine : ∀ e : Engine, e.Inv limits P → false = e.stream.isSome →
      e.Fine { limits, stays := P } := by
    intro e hinv hnone
    have hfine := hinv.fine
    rw [Option.isSome_eq_false_iff.mp hnone.symm |> Option.isNone_iff_eq_none.mp] at hfine
    exact hfine
  cases op with
  | load name dir l =>
    have hload := @Engine.load_spec w limits P none name (fun n hn h => hP n hn (congrArg some h.symm)) dir l
    mvcgen [run, hload]
    · rename_i h
      exact hfine _ h.1 h.2
    · exact Engine.Fine.inv
    · exact Engine.Fine.inv
  | unload name =>
    have hunload := @Engine.unload_spec limits P none name fun n hn h => hP n hn (congrArg some h.symm)
    mvcgen [run, hunload]
    · rename_i h
      exact hfine _ h.1 h.2
    · exact fun hf => hf.forget.inv
  | expire =>
    have hexpire := @Engine.expire_spec { limits, stays := P } w
    mvcgen [run, hexpire]
    · rename_i h
      exact hfine _ h.1 h.2
    · exact Engine.Fine.inv
    · exact Engine.Fine.inv
  | encode name =>
    have hencode := @Engine.runEncoder_spec { limits, stays := P } w name
    mvcgen [run, hencode]
    · rename_i h
      exact hfine _ h.1 h.2
    · exact Engine.Fine.inv
    · exact Engine.Fine.inv
  | chat name req =>
    have hchat := @Engine.chat_spec w limits P name req
    mvcgen [run, hchat]
    rename_i h
    exact hfine _ h.1 h.2
  | nextText =>
    have hnext := @Engine.nextText_spec w limits P
    mvcgen [run, hnext]
    rename_i h
    exact h.1
  | drop =>
    have hdrop := @Engine.dropStream_spec w limits P
    mvcgen [run, hdrop]
    rename_i h
    exact h.1

/-- Every step keeps the limits, the invariant and what is pinned, but what it replaces. -/
theorem Engine.step_inv {e e' : Engine} {a : World × Op} (h : e.step a = some e')
    (hinv : e.Inv limits P) (hP : ∀ n, P n → a.2.replaces ≠ some n) : e'.Inv limits P := by
  unfold step at h
  split at h
  · next hop =>
    obtain rfl := Option.some.inj h
    have hrun := Fallible.of_triple (a.2.run_spec a.1 hP) ⟨hinv, hop⟩
    exact hrun.state fun _ _ h => h
  · cases h

end Chatlink.Tachyon
