import Chatlink.Tachyon.Limits

/-!
# Slots and media

The template puts out a run of slots for each image and clip it shows, the engine makes their
soft tokens one after the other, and `slots` brings the two together. The prompt is laid out for
the media that are shown, in their order: a special token is not another's, and text has none.
-/
namespace Chatlink.Tachyon

open Serve (Role F32)
open Runs (Laid)
open Lists (bind_eq_ok)

/-- What a chat does before it puts out the prompt: the soft tokens of its media. -/
def Engine.mediaOf (w : World) (i : ℕ) (req : Request) : Eng (List (List F32)) := do
  expire w
  resident w i
  media w i (shown req.messages)

/-- The slot token of a medium. -/
def Chat.slotOf (c : Chat) : Medium → ℕ
  | .image _ => c.imageToken.getD 0
  | .clip _ => c.audioToken.getD 0

/-- The soft tokens a medium is promised. -/
def Chat.rows (c : Chat) (squares : Squares) : Medium → ℕ
  | .image image => (image.softTokens squares c.budget).toOption.getD 0
  | .clip clip => clip.count

namespace Chat

variable {tok : Tokenizer} {c : Chat} {squares : Squares}

/-- A slot of either kind. -/
def isSlot (c : Chat) (t : ℕ) : Bool := c.imageToken = some t || c.audioToken = some t

/-- Its kind of media has marks, and it is promised a soft token. -/
def Shows (c : Chat) (squares : Squares) : Medium → Prop
  | .image image => c.image ≠ none ∧ 0 < c.rows squares (.image image)
  | .clip clip => c.audio ≠ none ∧ 0 < c.rows squares (.clip clip)

/-- The tokens a format was opened with. -/
structure Opened (tok : Tokenizer) (c : Chat) : Prop where
  bos : tok.special "<bos>" = some c.bos
  turn : tok.special "<|turn>" = some c.turn
  ending : tok.special "<turn|>" = some c.ending
  think : tok.special "<|think|>" = some c.think
  image : c.image = marks tok ("<|image>", "<|image|>", "<image|>")
  audio : c.audio = marks tok ("<|audio>", "<|audio|>", "<audio|>")
  closed : ∀ a b, c.closed = some (a, b) →
    tok.special "<|channel>" = some a ∧ tok.special "<channel|>" = some b

theorem get_eq_ok {s : String} {id : ℕ} (h : get tok s = .ok id) : tok.special s = some id := by
  unfold get at h
  split at h
  · next hs =>
    cases h
    exact hs
  · cases h

theorem opened {block : Option Bool} {budget : ℕ} (h : open_ tok block budget = .ok c) :
    Opened tok c ∧ c.budget = budget := by
  obtain ⟨c₀, hc₀, h⟩ := bind_eq_ok h
  obtain ⟨bos, hbos, hc₀⟩ := bind_eq_ok hc₀
  obtain ⟨turn, hturn, hc₀⟩ := bind_eq_ok hc₀
  obtain ⟨ending, hending, hc₀⟩ := bind_eq_ok hc₀
  obtain ⟨think, hthink, hc₀⟩ := bind_eq_ok hc₀
  cases hc₀
  cases block with
  | none =>
    cases h
    exact ⟨⟨get_eq_ok hbos, get_eq_ok hturn, get_eq_ok hending, get_eq_ok hthink, rfl, rfl, nofun⟩, rfl⟩
  | some b =>
    cases h
    refine ⟨⟨get_eq_ok hbos, get_eq_ok hturn, get_eq_ok hending, get_eq_ok hthink, rfl, rfl, ?_⟩, rfl⟩
    intro x y hxy
    obtain ⟨opening, hopening, hxy⟩ := Option.bind_eq_some_iff.mp hxy
    obtain ⟨closing, hclosing, hxy⟩ := Option.bind_eq_some_iff.mp hxy
    split at hxy
    · cases hxy
      exact ⟨hopening, hclosing⟩
    · cases hxy

theorem marks_eq_some {names : String × String × String} {k : Marks} (h : marks tok names = some k) :
    tok.special names.1 = some k.opening ∧ tok.special names.2.1 = some k.slot ∧
      tok.special names.2.2 = some k.closing := by
  obtain ⟨opening, hopening, h⟩ := Option.bind_eq_some_iff.mp h
  obtain ⟨slot, hslot, h⟩ := Option.bind_eq_some_iff.mp h
  obtain ⟨closing, hclosing, h⟩ := Option.bind_eq_some_iff.mp h
  cases h
  exact ⟨hopening, hslot, hclosing⟩

/-- A special token is that of one text. -/
theorem special_inj {a b : String} {id : ℕ} (ha : tok.special a = some id)
    (hb : tok.special b = some id) : a = b := by
  have ha := List.find?_some ha
  have hb := List.find?_some hb
  rw [decide_eq_true_eq] at ha hb
  exact ha.symm.trans hb

/-- A slot is the special token of one of two texts. -/
theorem Opened.special_of_isSlot (ho : Opened tok c) {t : ℕ} (h : c.isSlot t = true) :
    tok.special "<|image|>" = some t ∨ tok.special "<|audio|>" = some t := by
  simp only [isSlot, Bool.or_eq_true, decide_eq_true_eq] at h
  rcases h with h | h
  · obtain ⟨k, hk, rfl⟩ := Option.map_eq_some_iff.mp h
    exact .inl (marks_eq_some (ho.image ▸ hk)).2.1
  · obtain ⟨k, hk, rfl⟩ := Option.map_eq_some_iff.mp h
    exact .inr (marks_eq_some (ho.audio ▸ hk)).2.1

theorem Opened.isSlot_special (ho : Opened tok c) {s : String} {t : ℕ} (h : tok.special s = some t)
    (himage : s ≠ "<|image|>") (haudio : s ≠ "<|audio|>") : c.isSlot t = false := by
  by_contra hslot
  rcases ho.special_of_isSlot (Bool.eq_true_of_not_eq_false hslot) with hs | hs
  · exact himage (special_inj h hs)
  · exact haudio (special_inj h hs)

theorem Opened.isSlot_text (ho : Opened tok c) (hp : tok.Plain) (s : String) :
    ∀ t ∈ tok.encode s, c.isSlot t = false := by
  intro t ht
  by_contra hslot
  rcases ho.special_of_isSlot (Bool.eq_true_of_not_eq_false hslot) with hs | hs
  · exact hp s t ht (List.mem_of_find?_eq_some hs)
  · exact hp s t ht (List.mem_of_find?_eq_some hs)

/-! ### The prompt is laid out for what is shown -/

/-- Tokens laid out for media. -/
def Lays (c : Chat) (squares : Squares) (xs : List Emitted) (ms : List Medium) : Prop :=
  Laid c.isSlot c.slotOf (c.rows squares) xs ms

theorem Lays.append {xs ys : List Emitted} {ms ns : List Medium} (h : c.Lays squares xs ms)
    (h' : c.Lays squares ys ns) : c.Lays squares (xs ++ ys) (ms ++ ns) :=
  Laid.append h h'

theorem Lays.after {xs ys : List Emitted} {ms : List Medium} (h : c.Lays squares xs [])
    (h' : c.Lays squares ys ms) : c.Lays squares (xs ++ ys) ms :=
  Laid.append h h'

theorem lays_mark {t : ℕ} (h : c.isSlot t = false) : c.Lays squares (mark t) [] := .gap h .nil

theorem lays_text (ho : Opened tok c) (hp : tok.Plain) (s : String) :
    c.Lays squares (text tok s) [] :=
  Runs.laid_gaps (ho.isSlot_text hp s)

/-- The slots of a medium between marks that are not slots. -/
theorem lays_slots {k : Marks} {x : Medium} (hopening : c.isSlot k.opening = false)
    (hclosing : c.isSlot k.closing = false) (hslot : c.slotOf x = k.slot) (his : c.isSlot k.slot = true)
    (hrows : 0 < c.rows squares x) : c.Lays squares (slots k x (c.rows squares x)) [x] := by
  have hrun : c.Lays squares
      (List.replicate (c.rows squares x) (c.slotOf x, some x) ++ (k.closing, none) :: []) [x] :=
    .run (hslot ▸ his) hrows hclosing .nil
  rw [hslot] at hrun
  rw [slots, List.append_assoc]
  exact (lays_mark hopening).append hrun

theorem lays_flatMap {α : Type} {f : α → List Emitted} {g : α → Medium} {as : List α}
    (h : ∀ a ∈ as, c.Lays squares (f a) [g a]) : c.Lays squares (as.flatMap f) (as.map g) := by
  induction as with
  | nil => exact .nil
  | cons a as ih =>
    rw [List.flatMap_cons, List.map_cons]
    exact (h a List.mem_cons_self).append (ih fun b hb => h b (List.mem_cons_of_mem a hb))

theorem lays_showImages (ho : Opened tok c) (hp : tok.Plain) (t : String) (m : Message)
    (hm : ∀ x ∈ m.images, c.Shows squares (.image x)) :
    c.Lays squares (c.showImages tok squares t m).1 (m.images.map .image) := by
  unfold showImages
  cases hi : m.images with
  | nil =>
    cases c.image <;> exact .nil
  | cons i is =>
    rw [hi] at hm
    cases hk : c.image with
    | none => exact absurd hk (hm i List.mem_cons_self).1
    | some k =>
      obtain ⟨hopening, hslot, hclosing⟩ := marks_eq_some (ho.image ▸ hk)
      apply (lays_text ho hp t).append
      apply lays_flatMap
      intro x hx
      apply lays_slots
      · exact ho.isSlot_special hopening (by decide) (by decide)
      · exact ho.isSlot_special hclosing (by decide) (by decide)
      · simp [slotOf, imageToken, hk]
      · simp [isSlot, imageToken, hk]
      · exact (hm x hx).2

theorem lays_playAudio (ho : Opened tok c) (hp : tok.Plain) (t : String) (m : Message)
    (hm : ∀ x ∈ m.audio, c.Shows squares (.clip x)) :
    c.Lays squares (c.playAudio tok t m).1 (m.audio.map .clip) := by
  unfold playAudio
  cases hi : m.audio with
  | nil =>
    cases c.audio <;> exact .nil
  | cons i is =>
    rw [hi] at hm
    cases hk : c.audio with
    | none => exact absurd hk (hm i List.mem_cons_self).1
    | some k =>
      obtain ⟨hopening, hslot, hclosing⟩ := marks_eq_some (ho.audio ▸ hk)
      apply (lays_text ho hp t).append
      apply lays_flatMap
      intro x hx
      apply lays_slots (x := Medium.clip x)
      · exact ho.isSlot_special hopening (by decide) (by decide)
      · exact ho.isSlot_special hclosing (by decide) (by decide)
      · simp [slotOf, audioToken, hk]
      · simp [isSlot, audioToken, hk]
      · exact (hm x hx).2

theorem lays_close (ho : Opened tok c) (hp : tok.Plain) (t : String) :
    c.Lays squares (c.close tok t) [] :=
  ((lays_text ho hp t).append
    (lays_mark (ho.isSlot_special ho.ending (by decide) (by decide)))).append (lays_text ho hp _)

/-- The media of a message. -/
def mediaOf (m : Message) : List Medium := m.images.map .image ++ m.audio.map .clip

/-- The media of messages that are not the model's. -/
def showing (ms : List Message) : List Medium := (ms.filter fun m => m.role ≠ .model).flatMap mediaOf

theorem lays_turnOf (ho : Opened tok c) (hp : tok.Plain) {m : Message}
    (hm : ∀ x ∈ mediaOf m, c.Shows squares x) :
    c.Lays squares (c.turnOf tok squares m) (mediaOf m) := by
  have himages : ∀ x ∈ m.images, c.Shows squares (.image x) := by
    intro x hx
    exact hm _ (List.mem_append_left _ (List.mem_map.mpr ⟨x, hx, rfl⟩))
  have haudio : ∀ x ∈ m.audio, c.Shows squares (.clip x) := by
    intro x hx
    exact hm _ (List.mem_append_right _ (List.mem_map.mpr ⟨x, hx, rfl⟩))
  have hturn : c.Lays squares (mark c.turn) [] :=
    lays_mark (ho.isSlot_special ho.turn (by decide) (by decide))
  rw [← List.append_nil (mediaOf m)]
  apply Lays.append _ (lays_close ho hp _)
  apply Lays.append _ (lays_playAudio ho hp _ m haudio)
  exact hturn.after (lays_showImages ho hp _ m himages)

theorem lays_modelTurn (ho : Opened tok c) (hp : tok.Plain) (said : Option String) :
    c.Lays squares (c.modelTurn tok said) [] := by
  cases said with
  | none => exact .nil
  | some t =>
    exact (lays_mark (ho.isSlot_special ho.turn (by decide) (by decide))).append (lays_close ho hp _)

theorem lays_turns (ho : Opened tok c) (hp : tok.Plain) {ms : List Message}
    (hms : ∀ x ∈ showing ms, c.Shows squares x) (said : Option String) :
    c.Lays squares (c.turns tok squares said ms) (showing ms) := by
  induction ms generalizing said with
  | nil => exact lays_modelTurn ho hp said
  | cons m ms ih =>
    unfold turns
    unfold showing at hms ih ⊢
    split
    · next hrole =>
      rw [List.filter_cons_of_neg (by simpa using hrole)] at hms ⊢
      exact ih hms _
    · next hrole =>
      rw [List.filter_cons_of_pos (by simpa using hrole), List.flatMap_cons] at hms ⊢
      have hturn := lays_turnOf ho hp fun x hx => hms x (List.mem_append_left _ hx)
      have hrest := ih (fun x hx => hms x (List.mem_append_right _ hx)) none
      exact ((lays_modelTurn ho hp said).append hturn).append hrest

/-- The first message is no turn of its own if it is a system message; the engine passes over its
media too. -/
theorem shown_eq (ms : List Message) : shown ms = showing (system ms).2 := by
  have hlater : ∀ (k : ℕ) (ms : List Message),
      ((ms.zipIdx (k + 1)).filter fun m => m.1.role = .user || m.1.role = .system && 0 < m.2).flatMap
        (fun m => m.1.images.map .image ++ m.1.audio.map .clip) = showing ms := by
    intro k ms
    induction ms generalizing k with
    | nil => rfl
    | cons m ms ih =>
      unfold showing at ih ⊢
      rw [List.zipIdx_cons, List.filter_cons, List.filter_cons]
      cases m.role <;> simp [ih, mediaOf]
  cases ms with
  | nil => rfl
  | cons m ms =>
    have hrest := hlater 0 ms
    unfold shown
    rw [List.zipIdx_cons, List.filter_cons]
    cases hrole : m.role with
    | system => simpa [hrole, system] using hrest
    | user => simpa [hrole, system, showing, mediaOf] using hrest
    | model => simpa [hrole, system, showing, mediaOf] using hrest

theorem lays_systemTurn (ho : Opened tok c) (hp : tok.Plain) (said : Option String) (think : Bool) :
    c.Lays squares (c.systemTurn tok said think) [] := by
  have hturn : c.Lays squares (mark c.turn) [] :=
    lays_mark (ho.isSlot_special ho.turn (by decide) (by decide))
  unfold systemTurn
  split
  · apply hturn.after
    split
    · exact ((lays_text ho hp _).append (lays_mark (ho.isSlot_special ho.think (by decide) (by decide)))).append (lays_close ho hp _)
    · exact lays_close ho hp _
  · exact .nil

theorem lays_opening (ho : Opened tok c) (hp : tok.Plain) (think : Bool) :
    c.Lays squares (c.opening tok think) [] := by
  have hturn : c.Lays squares (mark c.turn) [] :=
    lays_mark (ho.isSlot_special ho.turn (by decide) (by decide))
  unfold opening
  apply (hturn.after (lays_text ho hp _)).after
  split
  · next a b hclosed =>
    obtain ⟨ha, hb⟩ := ho.closed a b hclosed
    exact ((lays_mark (ho.isSlot_special ha (by decide) (by decide))).append (lays_text ho hp _)).append
      (lays_mark (ho.isSlot_special hb (by decide) (by decide)))
  · exact .nil

/-- The prompt of a conversation is laid out for the media the engine makes soft tokens of. -/
theorem lays_emit (ho : Opened tok c) (hp : tok.Plain) {ms : List Message}
    (hms : ∀ x ∈ shown ms, c.Shows squares x) (think : Bool) :
    c.Lays squares (c.emit tok squares ms think) (shown ms) := by
  rw [shown_eq] at hms ⊢
  have hall := (((lays_mark (ho.isSlot_special ho.bos (by decide) (by decide))).append
    (lays_systemTurn ho hp (system ms).1 think)).append (lays_turns ho hp hms none)).append
    (lays_opening ho hp think)
  rw [List.append_nil] at hall
  exact hall

end Chat

/-! ### The i-th run belongs to the i-th medium -/

/-- Place `r` is the run of `x` in what was put out, as long as promised, and what goes there are
the soft tokens made of `x`, so many rows of them. -/
def Model.Belongs (w : World) (m : Model) (xs : List Emitted) (x : Medium) (r : ℕ × List F32) : Prop :=
  Runs.Holds m.chat.slotOf (m.chat.rows w.squares) xs 0 (r.1, m.chat.rows w.squares x) x ∧
    m.Made w x r.2 ∧ r.2.length = m.chat.rows w.squares x * m.width

variable {w : World} {m : Model} {ms : List Message} {soft : List (List F32)} {think : Bool}

/-- What the towers make of a medium has the rows that the template promises. -/
theorem Model.Made.length {x : Medium} {s : List F32} (h : m.Made w x s)
    (hbudget : m.chat.budget = m.load.budget)
    (hwidth : ∀ v t, m.vision = some v → m.audio = some t → v.width = t.width) :
    s.length = m.chat.rows w.squares x * m.width := by
  cases x with
  | image image =>
    obtain ⟨v, hv, hs⟩ := h
    obtain ⟨n, hn, hlength⟩ := length_vision hs
    have hm : m.width = v.width := by simp [Model.width, hv]
    rw [hlength, Chat.rows, hbudget, hn, hm]
    rfl
  | clip clip =>
    obtain ⟨t, ht, hs⟩ := h
    have hm : m.width = t.width := by
      cases hv : m.vision with
      | none => simp [Model.width, hv, ht]
      | some v => simp [Model.width, hv, hwidth v t hv ht]
    rw [(length_audio hs).2, Chat.rows, hm]

/-- A medium that was made into soft tokens has marks in the template. -/
theorem Model.Made.shows {x : Medium} {s : List F32} (h : m.Made w x s) (hok : m.Ok)
    (hone : ∀ image, x = .image image → 0 < m.chat.rows w.squares x) : m.chat.Shows w.squares x := by
  cases x with
  | image image =>
    obtain ⟨v, hv, -⟩ := h
    exact ⟨hok.marks.1 (by simp [hv]), hone image rfl⟩
  | clip clip =>
    obtain ⟨t, ht, hs⟩ := h
    exact ⟨hok.marks.2 (by simp [ht]), (length_audio hs).1⟩

theorem forall₂_zip {runs : List (ℕ × ℕ)} {xs : List Emitted} {bs : List Medium}
    (hruns : List.Forall₂ (Runs.Holds m.chat.slotOf (m.chat.rows w.squares) xs 0) runs bs)
    (hmade : List.Forall₂ (m.Made w) bs soft) (hbudget : m.chat.budget = m.load.budget)
    (hwidth : ∀ v t, m.vision = some v → m.audio = some t → v.width = t.width) :
    runs.length = soft.length ∧ (∀ r ∈ runs.zip soft, r.1.2 * m.width = r.2.length) ∧
      List.Forall₂ (m.Belongs w xs) bs ((runs.zip soft).map fun r => (r.1.1, r.2)) := by
  induction hruns generalizing soft with
  | nil =>
    cases hmade
    exact ⟨rfl, nofun, .nil⟩
  | @cons r b runs bs hr _ ih =>
    cases hmade with
    | @cons _ s _ soft hs hsoft =>
      obtain ⟨hlength, hrows, hbelongs⟩ := ih hsoft
      have hsl := hs.length hbudget hwidth
      refine ⟨by simp [hlength], ?_, .cons ⟨?_, hs, hsl⟩ hbelongs⟩
      · intro z hz
        rcases List.mem_cons.mp hz with rfl | hz
        · rw [hsl, ← hr.1]
        · exact hrows z hz
      · rw [← hr.1]
        exact hr

/-- The slots of a conversation and the soft tokens of its media match one for one. -/
theorem Model.slots_made (hok : m.Ok) (hplain : m.tok.Plain)
    (hmade : List.Forall₂ (m.Made w) (shown ms) soft)
    (hwidth : ∀ v t, m.vision = some v → m.audio = some t → v.width = t.width)
    (hone : ∀ image, Medium.image image ∈ shown ms → 0 < m.chat.rows w.squares (.image image)) :
    ∃ places, slots (m.chat.encode m.tok w.squares ms think)
        (m.chat.imageToken, m.chat.audioToken) soft m.width = .ok places ∧
      places.map Prod.snd = soft ∧
      List.Forall₂ (m.Belongs w (m.chat.emit m.tok w.squares ms think)) (shown ms) places := by
  obtain ⟨template, hchat⟩ := hok.chat
  obtain ⟨hopened, hbudget⟩ := Chat.opened hchat
  have hshows : ∀ x ∈ shown ms, m.chat.Shows w.squares x := by
    intro x hx
    obtain ⟨hlength, hget⟩ := List.forall₂_iff_get.mp hmade
    obtain ⟨j, hj, rfl⟩ := List.mem_iff_getElem.mp hx
    apply (hget j hj (hlength ▸ hj)).shows hok
    rintro image himage
    rw [List.get_eq_getElem] at himage ⊢
    rw [himage] at hx ⊢
    exact hone image hx
  have hruns := Runs.runs_laid (Chat.lays_emit hopened hplain hshows think)
  obtain ⟨hlength, hrows, hbelongs⟩ := forall₂_zip hruns hmade hbudget hwidth
  refine ⟨_, ?_, ?_, hbelongs⟩
  · unfold slots
    rw [if_neg]
    · rfl
    · rintro (hne | hany)
      · exact hne hlength
      · obtain ⟨r, hr, hne⟩ := List.any_eq_true.mp hany
        exact of_decide_eq_true hne (hrows r hr)
  · rw [List.map_map]
    exact List.map_snd_zip hlength.ge

namespace Engine

open Std.Do Transition

set_option mvcgen.warning false

variable {vram host i : ℕ} {e e' : Engine} {req : Request}

theorem mediaOf_spec {k : Plan} (i : ℕ) (req : Request) :
    ⦃fun e => ⌜Fine k e⌝⦄ mediaOf w i req
    ⦃post⟨fun soft e => ⌜Fine k e ∧ Here i (fun m => List.Forall₂ (m.Made w) (shown req.messages) soft) e⌝,
      fun _ e => ⌜Fine k e⌝⟩⦄ := by
  have hexpire := @expire_spec k w
  have hresident := @resident_spec k w i
  have hmedia := @media_spec k w (fun _ => True) (shown req.messages) (fun _ _ _ h => h) i
  mvcgen [mediaOf, hexpire, hresident, hmedia]
  · rename_i h
    obtain ⟨hf, m, hm, hr⟩ := h
    exact ⟨hf, m, hm, hr, trivial⟩
  · rintro hf ⟨m, hm, hr, -, hmade⟩
    exact ⟨hf, m, hm, hr, hmade⟩

/-- Whenever a chat has the soft tokens of its media, `slots` finds a run for each: the i-th, of
exactly the length promised, was put out for the i-th image or clip and gets what its tower made
of it. -/
theorem media_placed (h : Reachable step Libre { vram, host } e) (hnone : e.stream = none)
    (hmedia : Fallible.after (mediaOf w i req) e = (.ok soft, e')) (hm : e'.models[i]? = some m)
    (hplain : m.tok.Plain)
    (hwidth : ∀ v t, m.vision = some v → m.audio = some t → v.width = t.width)
    (hone : ∀ image, Medium.image image ∈ shown req.messages →
      0 < m.chat.rows w.squares (.image image)) :
    soft.length = (shown req.messages).length ∧
      ∃ places, slots (m.chat.encode m.tok w.squares req.messages req.think)
          (m.chat.imageToken, m.chat.audioToken) soft m.width = .ok places ∧
        places.map Prod.snd = soft ∧
        List.Forall₂ (m.Belongs w (m.chat.emit m.tok w.squares req.messages req.think))
          (shown req.messages) places := by
  have hf := (inv_of_reachable h).fine
  rw [hnone] at hf
  have hrun := Fallible.of_triple (mediaOf_spec (w := w) i req) hf
  rw [hmedia] at hrun
  obtain ⟨hf', hhere⟩ := hrun
  obtain ⟨-, hmade⟩ := hhere.of_getElem? hm
  refine ⟨hmade.length_eq.symm, ?_⟩
  exact Model.slots_made (hf'.models m (List.mem_of_getElem? hm)) hplain hmade hwidth hone

def galleryTokenizer : Tokenizer where
  specials := List.range 10
  bytes := fun id => ["<bos>", "<|turn>", "<turn|>", "<|think|>", "<|image>", "<|image|>", "<image|>",
    "<|audio>", "<|audio|>", "<audio|>"].getD id "?"
  encode := fun _ => [10]
  piece := fun _ => ""
  rest := fun _ => ""

def galleryVision : Vision where
  width := 2
  cap := 9
  bytes := 1
  value := fun _ _ _ => ⟨0⟩
  passes := fun _ => true

def galleryAudio : Tower where
  width := 2
  bytes := 1
  value := fun _ _ => ⟨0⟩
  passes := fun _ => true

/-- Directories that all hold a model with both towers, and images that fit one square. -/
def gallery : World where
  now := 1
  files := fun _ =>
    { encoder := .ok none
      tokenizer := .ok galleryTokenizer
      template := none
      need := fun _ => .ok 4
      decoder := .ok (3, 1, 2)
      vision := some (.ok galleryVision)
      audio := some (.ok galleryAudio) }
  squares := fun _ _ _ => 1
  sample := List.length
  alive := 100
  opens := true
  resumes := true
  trims := true
  runs := .ok ()

def galleryModel (vision : Option Vision) (audio : Option Tower) : Model where
  name := "a"
  dir := "/a"
  load := {}
  tok := galleryTokenizer
  chat := { bos := 0, turn := 1, ending := 2, think := 3, image := some ⟨4, 5, 6⟩
            audio := some ⟨7, 8, 9⟩, budget := 280, closed := none }
  ends := [2, 2]
  need := 4
  used := 1
  until_ := some 301
  place := .vram { weights := 3, table := 1, hidden := 2, chunk := 512, alive := 100 }
  vision
  audio

/-- An image and a clip in one message and an image in another. -/
def look : Request where
  messages :=
    [{ role := .system, text := "s" },
      { role := .user, text := "u", images := [{ width := 1, height := 1, rgb := [0, 0, 0] }]
        audio := [{ rate := 16, samples := [⟨0⟩] }] },
      { role := .model, text := "m" },
      { role := .system, text := "t", images := [{ width := 1, height := 1, rgb := [1, 1, 1] }] }]
  think := false
  maxTokens := 100
  keepAlive := none

/-- Runs of one slot for the images, and of two for the clip between them. -/
theorem media_placed_gallery : ∃ places,
    slots [0, 1, 10, 2, 10, 1, 10, 4, 5, 6, 10, 7, 8, 8, 9, 10, 2, 10, 1, 10, 2, 10, 1, 10, 4, 5, 6, 10,
      2, 10, 1, 10] (some 5, some 8) [[⟨0⟩, ⟨0⟩], [⟨0⟩, ⟨0⟩, ⟨0⟩, ⟨0⟩], [⟨0⟩, ⟨0⟩]] 2 = .ok places ∧
    List.Forall₂ ((galleryModel (some galleryVision) (some galleryAudio)).Belongs gallery
      ((galleryModel none none).chat.emit galleryTokenizer gallery.squares look.messages false))
      (shown look.messages) places := by
  have hload : step { vram := 10, host := 0 } (gallery, .load "a" "/a" {}) =
      some { models := [galleryModel none none], vram := 10, host := 0 } := by
    rfl
  have hmedia : Fallible.after (mediaOf gallery 0 look)
      { models := [galleryModel none none], vram := 10, host := 0 } =
      (.ok [[⟨0⟩, ⟨0⟩], [⟨0⟩, ⟨0⟩, ⟨0⟩, ⟨0⟩], [⟨0⟩, ⟨0⟩]],
        { models := [galleryModel (some galleryVision) (some galleryAudio)], vram := 10, host := 0 }) := by
    rfl
  have hplain : galleryTokenizer.Plain := by
    intro text t ht
    obtain rfl := List.mem_singleton.mp ht
    decide
  have hone : ∀ image, Medium.image image ∈ shown look.messages →
      0 < (galleryModel none none).chat.rows gallery.squares (.image image) := by
    intro image _
    simp [Chat.rows, Image.softTokens, Image.fittedSize, galleryModel, gallery, BUDGETS, POOL, PATCH,
      bind, Except.bind, Except.toOption]
  obtain ⟨-, places, hplaces, -, hbelongs⟩ := media_placed (.tail _ .refl trivial hload) rfl hmedia rfl
    hplain (fun v t hv ht => by cases hv; cases ht; rfl) hone
  exact ⟨places, hplaces, hbelongs⟩

end Engine

end Chatlink.Tachyon
