import Chatlink.Lib.Lists
import Chatlink.Tachyon.Engine

/-!
# Making room

Making room moves models out of VRAM and frees pinned memory. Nothing else about a model
changes, pinned models and the one room is made for stay, and the totals the engine counts stay
within its limits, also when a model that is moved out fails to park.
-/
namespace Chatlink.Tachyon

open Std.Do
open Lists (sum_modify)

set_option mvcgen.warning false

namespace Decoder

/-- A copy of the weights is one of all of them. -/
def Copied (d : Decoder) : Prop := d.shadow = none ∨ d.shadow = some d.weights

theorem bytes_park {d : Decoder} {p : Parked} (h : d.Copied)
    (hp : (Fallible.after park d).1 = .ok p) : p.bytes = d.parkedBytes := by
  have hspec : ⦃fun e => ⌜e = d⌝⦄ park ⦃post⟨fun p _ => ⌜p.bytes = d.parkedBytes⌝, fun _ _ => ⌜True⌝⟩⦄ := by
    mvcgen [park, stop, call]
    all_goals obtain rfl := ‹_ = d›
    · rcases h with h | h
      · simp_all
      · simp_all [Parked.bytes, parkedBytes]
    · rfl
  have hholds := Fallible.of_triple hspec rfl
  rw [Fallible.Holds, hp] at hholds
  exact hholds

end Decoder

namespace Model

/-- VRAM it takes. -/
def cost (m : Model) : ℕ := m.towers + if m.resident then m.need else 0

/-- Towers are only in VRAM and for marks it has, the copy of its weights is whole, nothing was fed
beyond its context, and its chat template is one for its tokens. -/
structure Ok (m : Model) : Prop where
  towers : m.resident = false → m.vision = none ∧ m.audio = none
  marks : (m.vision ≠ none → m.chat.image ≠ none) ∧ (m.audio ≠ none → m.chat.audio ≠ none)
  copied : ∀ d, m.place = .vram d → d.Copied
  fed : ∀ d, m.place = .vram d → ∀ p ∈ d.fed, p.1 < m.load.settings.context
  chat : ∃ template, Chat.open_ m.tok template m.load.budget = .ok m.chat

/-- What may become of a model that is loaded. -/
structure Becomes (m m' : Model) : Prop where
  ok : m'.Ok
  name : m'.name = m.name
  load : m'.load = m.load
  pinned : m.load.pin = true → m.resident = true → m'.resident = true

/-- Only where it is changes, and it may leave VRAM unless it stays. -/
structure Aged (stays : Prop) (m m' : Model) : Prop where
  same : m' = { m with place := m'.place, vision := m'.vision, audio := m'.audio }
  decoder : ∀ d', m'.place = .vram d' → ∃ d, m.place = .vram d ∧ d' = { d with shadow := d'.shadow }
  kept : stays ∨ m.load.pin = true → m'.resident = m.resident ∧ m'.vision = m.vision ∧
    m'.audio = m.audio

variable {m m' m'' : Model} {stays : Prop} {d : Decoder}

@[simp] theorem resident_vram (h : m.place = .vram d) : m.resident = true := by
  simp [resident, h]

theorem resident_iff : m.resident = true ↔ ∃ d, m.place = .vram d := by
  unfold resident
  cases m.place <;> simp

theorem Aged.refl (stays : Prop) (m : Model) : Aged stays m m :=
  ⟨rfl, fun d hd => ⟨d, hd, rfl⟩, fun _ => ⟨rfl, rfl, rfl⟩⟩

theorem Aged.load (h : Aged stays m m') : m'.load = m.load := by rw [h.same]

theorem Aged.name (h : Aged stays m m') : m'.name = m.name := by rw [h.same]

theorem Aged.trans (h : Aged stays m m') (h' : Aged stays m' m'') : Aged stays m m'' := by
  refine ⟨?_, fun d'' hd'' => ?_, fun hs => ?_⟩
  · rw [h'.same, h.same]
  · obtain ⟨d', hd', heq'⟩ := h'.decoder d'' hd''
    obtain ⟨d, hd, heq⟩ := h.decoder d' hd'
    exact ⟨d, hd, by rw [heq', heq]⟩
  · obtain ⟨hr, hv, ha⟩ := h.kept hs
    obtain ⟨hr', hv', ha'⟩ := h'.kept (hs.imp_right fun hp => (congrArg Load.pin h.load).trans hp)
    exact ⟨hr'.trans hr, hv'.trans hv, ha'.trans ha⟩

theorem Aged.resident_false (h : Aged stays m m') (hr : m.resident = false) :
    m'.resident = false := by
  by_contra hr'
  obtain ⟨d', hd'⟩ := resident_iff.mp (Bool.eq_true_of_not_eq_false hr')
  obtain ⟨d, hd, -⟩ := h.decoder d' hd'
  rw [resident_iff.mpr ⟨d, hd⟩] at hr
  cases hr

theorem aged_letGo (stays : Prop) (m : Model) : Aged stays m m.letGo := by
  unfold letGo
  cases hp : m.place with
  | vram d =>
    refine ⟨rfl, fun d' hd' => ⟨d, hp, ?_⟩, fun _ => ⟨by simp [resident, hp], rfl, rfl⟩⟩
    obtain rfl := Place.vram.inj hd'
    rfl
  | host p => exact ⟨rfl, nofun, fun _ => ⟨by simp [resident, hp], rfl, rfl⟩⟩
  | disk => exact ⟨rfl, nofun, fun _ => ⟨by simp [resident, hp], rfl, rfl⟩⟩

theorem becomes_letGo (h : m.Ok) : m.Becomes m.letGo := by
  unfold letGo
  cases hp : m.place with
  | vram d =>
    refine ⟨⟨fun hr => by simp [resident] at hr, h.marks, fun d' hd' => ?_, fun d' hd' => ?_, h.chat⟩, rfl, rfl,
      fun _ _ => by simp [resident]⟩
    · obtain rfl := Place.vram.inj hd'
      exact .inl rfl
    · obtain rfl := Place.vram.inj hd'
      exact h.fed d hp
  | host p =>
    refine ⟨⟨fun _ => h.towers (by simp [resident, hp]), h.marks, nofun, nofun, h.chat⟩, rfl, rfl, fun _ hr => ?_⟩
    simp [resident, hp] at hr
  | disk =>
    refine ⟨⟨fun _ => h.towers (by simp [resident, hp]), h.marks, nofun, nofun, h.chat⟩, rfl, rfl, fun _ hr => ?_⟩
    simp [resident, hp] at hr

theorem aged_out (hs : ¬stays) (hp : m.load.pin = false) : Aged stays m m.out := by
  refine ⟨rfl, nofun, fun hkept => ?_⟩
  rcases hkept with hkept | hpin
  · exact absurd hkept hs
  · rw [hp] at hpin
    cases hpin

theorem becomes_out (h : m.Ok) (hp : m.load.pin = false) : m.Becomes m.out := by
  refine ⟨⟨fun _ => ⟨rfl, rfl⟩, ⟨fun hv => absurd rfl hv, fun ha => absurd rfl ha⟩, nofun, nofun, h.chat⟩,
    rfl, rfl, fun hpin => ?_⟩
  rw [hp] at hpin
  cases hpin

@[simp] theorem cost_out (m : Model) : m.out.cost = 0 := rfl

@[simp] theorem held_out (m : Model) : m.out.held = 0 := rfl

theorem cost_letGo (m : Model) : m.letGo.cost = m.cost := by
  unfold Model.letGo cost
  cases hp : m.place <;> simp [towers, resident, hp]

theorem cost_of_not_resident (h : m.Ok) (hr : m.resident = false) : m.cost = 0 := by
  obtain ⟨hv, ha⟩ := h.towers hr
  simp [cost, towers, hv, ha, hr]

theorem held_letGo (m : Model) : m.letGo.held = 0 := by
  unfold Model.letGo held
  cases hp : m.place <;> simp [Decoder.dropShadow, Decoder.shadowBytes]

theorem holds_letGo (m : Model) : m.letGo.holds = false := by
  unfold Model.letGo holds
  cases hp : m.place <;> simp [Decoder.dropShadow, Decoder.shadowBytes]

theorem held_of_not_holds (h : m.holds = false) : m.held = 0 := by
  unfold holds at h
  unfold held
  cases hp : m.place with
  | vram d => simpa [hp] using h
  | host p => simp [hp] at h
  | disk => rfl

end Model

namespace Engine

variable {e e' e'' : Engine} {i j : ℕ} {m : Model} {f : Model → Model} {keep : Option ℕ}

theorem used_eq (e : Engine) :
    e.used = (e.encoders.map Held.bytes).sum + (e.models.map Model.cost).sum := by
  have hsplit : ∀ ms : List Model, (ms.map Model.cost).sum =
      (ms.map Model.towers).sum + ((ms.filter Model.resident).map Model.need).sum := by
    intro ms
    induction ms with
    | nil => rfl
    | cons m ms ih =>
      rw [List.map_cons, List.sum_cons, ih, List.map_cons, List.sum_cons, List.filter_cons]
      cases hr : m.resident with
      | true =>
        simp only [Model.cost, hr, if_true, List.map_cons, List.sum_cons]
        omega
      | false =>
        simp only [Model.cost, hr, Bool.false_eq_true, if_false]
        omega
  rw [used, hsplit, Nat.add_assoc]

theorem used_modify (h : e.models[i]? = some m) :
    (e.modifyModel i f).used + m.cost = e.used + (f m).cost := by
  have hsum : ((e.models.modify i f).map Model.cost).sum + m.cost = _ := sum_modify h
  rw [used_eq, used_eq]
  change (e.encoders.map Held.bytes).sum + ((e.models.modify i f).map Model.cost).sum + _ = _
  omega

theorem hosted_modify (h : e.models[i]? = some m) :
    (e.modifyModel i f).hosted + m.held = e.hosted + (f m).held :=
  sum_modify h

/-- The totals are within the limits, every model is as it should be, and names are unique. -/
structure Sound (e : Engine) : Prop where
  vram : e.used ≤ e.vram
  host : e.hosted ≤ e.host
  models : ∀ m ∈ e.models, m.Ok
  names : (e.models.map Model.name ++ e.encoders.map Held.name).Nodup

/-- What an operation owes: the limits for VRAM and pinned memory, what is pinned and stays, what
is not there, the model that is being loaded, which is the last, and the answer being generated. -/
structure Plan where
  limits : ℕ × ℕ
  stays : String → Prop
  absent : String → Prop := fun _ => False
  loading : Option ℕ := none
  stream : Option TokenStream := none

/-- Pinned models are in VRAM, but for the one that is being loaded, and the plan is kept. -/
structure Fine (k : Plan) (e : Engine) : Prop extends Sound e where
  limits : (e.vram, e.host) = k.limits
  loading : ∀ i, k.loading = some i → e.models.length = i + 1
  resident : ∀ j m, k.loading ≠ some j → e.models[j]? = some m → m.load.pin = true →
    m.resident = true
  stays : ∀ n, k.stays n →
    (∃ j m, k.loading ≠ some j ∧ e.models[j]? = some m ∧ m.name = n ∧ m.load.pin = true) ∨
    ∃ h ∈ e.encoders, h.name = n ∧ h.pin = true
  absent : ∀ n, k.absent n → n ∉ e.models.map Model.name ++ e.encoders.map Held.name
  stream : e.stream = k.stream

/-- From `e`, room was made: models aged, the one that room is made for and pinned ones where
they were. -/
structure Room (keep : Option ℕ) (e e' : Engine) : Prop where
  encoders : e'.encoders = e.encoders
  vram : e'.vram = e.vram
  host : e'.host = e.host
  prompt : e'.prompt = e.prompt
  stream : e'.stream = e.stream
  models : ∀ i, Option.Rel (Model.Aged (keep = some i)) e.models[i]? e'.models[i]?

theorem Room.refl (keep : Option ℕ) (e : Engine) : Room keep e e where
  encoders := rfl
  vram := rfl
  host := rfl
  prompt := rfl
  stream := rfl
  models := fun i => by
    cases e.models[i]? with
    | none => exact .none
    | some m => exact .some (.refl _ m)

theorem Room.trans (h : Room keep e e') (h' : Room keep e' e'') : Room keep e e'' where
  encoders := h'.encoders.trans h.encoders
  vram := h'.vram.trans h.vram
  host := h'.host.trans h.host
  prompt := h'.prompt.trans h.prompt
  stream := h'.stream.trans h.stream
  models := fun i => by
    have h₁ := h.models i
    have h₂ := h'.models i
    generalize e.models[i]? = a at h₁
    generalize e'.models[i]? = b at h₁ h₂
    generalize e''.models[i]? = c at h₂
    cases h₁ with
    | none =>
      cases h₂
      exact .none
    | some h₁ =>
      cases h₂ with
      | some h₂ => exact .some (h₁.trans h₂)

theorem Room.names (h : Room keep e e') : e'.models.map Model.name = e.models.map Model.name := by
  apply List.ext_getElem?
  intro i
  rw [List.getElem?_map, List.getElem?_map]
  have hi := h.models i
  generalize e.models[i]? = a at hi
  generalize e'.models[i]? = b at hi
  cases hi with
  | none => rfl
  | some ha => simp [ha.name]

theorem getElem?_modifyModel (i j : ℕ) (f : Model → Model) (e : Engine) :
    (e.modifyModel i f).models[j]? = if i = j then e.models[j]?.map f else e.models[j]? := by
  unfold modifyModel
  rcases eq_or_ne i j with rfl | hne
  · simp
  · simp [hne]

theorem modifyModel_of_none (h : e.models[i]? = none) : e.modifyModel i f = e := by
  have hsame : e.models.modify i f = e.models :=
    List.modify_eq_self (List.getElem?_eq_none_iff.mp h)
  rw [modifyModel, hsame]

theorem room_modify (h : e.models[j]? = some m) (ha : Model.Aged (keep = some j) m (f m)) :
    Room keep e (e.modifyModel j f) where
  encoders := rfl
  vram := rfl
  host := rfl
  prompt := rfl
  stream := rfl
  models := fun i => by
    rw [getElem?_modifyModel]
    split
    · next hji =>
      rw [← hji, h]
      exact .some ha
    · cases e.models[i]? with
      | none => exact .none
      | some m => exact .some (.refl _ m)

variable {k : Plan}

theorem names_modify (h : e.models[i]? = some m) (hname : (f m).name = m.name) :
    (e.modifyModel i f).models.map Model.name = e.models.map Model.name := by
  apply List.ext_getElem?
  intro j
  rw [List.getElem?_map, List.getElem?_map, getElem?_modifyModel]
  split
  · next hij =>
    rw [← hij, h]
    simp [hname]
  · rfl

/-- A model becomes another one that there is room for. -/
theorem Fine.modify (hf : Fine k e) (h : e.models[i]? = some m) (hto : m.Becomes (f m))
    (hvram : e.used + (f m).cost ≤ e.vram + m.cost) (hhost : e.hosted + (f m).held ≤ e.host + m.held) :
    Fine k (e.modifyModel i f) where
  vram := by
    have hused := used_modify (f := f) h
    change (e.modifyModel i f).used ≤ e.vram
    omega
  host := by
    have hhosted := hosted_modify (f := f) h
    change (e.modifyModel i f).hosted ≤ e.host
    omega
  models := fun m' hm' => by
    obtain ⟨j, hj⟩ := List.mem_iff_getElem?.mp hm'
    rw [getElem?_modifyModel] at hj
    split at hj
    · next hij =>
      rw [← hij, h] at hj
      obtain rfl := Option.some.inj hj
      exact hto.ok
    · exact hf.models m' (List.mem_iff_getElem?.mpr ⟨j, hj⟩)
  names := by
    rw [names_modify h hto.name]
    exact hf.names
  limits := hf.limits
  loading := fun j hj => by
    rw [modifyModel, List.length_modify]
    exact hf.loading j hj
  resident := fun j m' hx hj hpin => by
    rw [getElem?_modifyModel] at hj
    split at hj
    · next hij =>
      subst hij
      rw [h] at hj
      obtain rfl := Option.some.inj hj
      rw [hto.load] at hpin
      exact hto.pinned hpin (hf.resident i m hx h hpin)
    · exact hf.resident j m' hx hj hpin
  stays := fun n hn => by
    refine (hf.stays n hn).imp_left ?_
    rintro ⟨j, m', hx, hj, hname, hpin⟩
    rcases eq_or_ne i j with rfl | hne
    · rw [h] at hj
      obtain rfl := Option.some.inj hj
      refine ⟨i, f m, hx, ?_, hto.name.trans hname, (congrArg Load.pin hto.load).trans hpin⟩
      rw [getElem?_modifyModel, if_pos rfl, h]
      rfl
    · refine ⟨j, m', hx, ?_, hname, hpin⟩
      rw [getElem?_modifyModel, if_neg hne, hj]
  absent := fun n hn => by
    rw [names_modify h hto.name]
    exact hf.absent n hn
  stream := hf.stream

theorem oldest_eq_some {p : Model × ℕ → Bool} (h : e.oldest p = some j) :
    ∃ m, e.models[j]? = some m ∧ p (m, j) = true := by
  obtain ⟨⟨m, k⟩, hmin, rfl⟩ := Option.map_eq_some_iff.mp h
  obtain ⟨hmem, hp⟩ := List.mem_filter.mp (List.argmin_mem hmin)
  exact ⟨m, List.mem_zipIdx_iff_getElem?.mp hmem, hp⟩

theorem oldest_eq_none {p : Model × ℕ → Bool} (h : e.oldest p = none) (hm : e.models[j]? = some m) :
    p (m, j) = false := by
  have hnil := List.argmin_eq_none.mp (Option.map_eq_none_iff.mp h)
  have hnot := List.filter_eq_nil_iff.mp hnil (m, j) (List.mem_zipIdx_iff_getElem?.mpr hm)
  exact Bool.eq_false_of_not_eq_true hnot

/-- The models that hold pinned memory. -/
def holders (e : Engine) : ℕ := (e.models.map fun m => m.holds.toNat).sum

theorem holders_le (e : Engine) : e.holders ≤ e.models.length := by
  unfold holders
  induction e.models with
  | nil => exact le_rfl
  | cons m ms ih =>
    have hone := Bool.toNat_le m.holds
    rw [List.map_cons, List.sum_cons, List.length_cons]
    omega

theorem hosted_eq_zero (h : ∀ m ∈ e.models, m.holds = false) : e.hosted = 0 := by
  unfold hosted
  apply List.sum_eq_zero
  intro b hb
  obtain ⟨m, hm, rfl⟩ := List.mem_map.mp hb
  exact Model.held_of_not_holds (h m hm)

/-- Every model that holds pinned memory is asked to let it go, if need be. -/
theorem freeHost_spec (keep : Option ℕ) {bytes fuel : ℕ} (hf : Fine k e)
    (hfuel : e.holders ≤ fuel) (hbytes : bytes ≤ e.host) :
    Fine k (freeHost bytes fuel e) ∧ Room keep e (freeHost bytes fuel e) ∧
      (freeHost bytes fuel e).hosted + bytes ≤ e.host := by
  induction fuel generalizing e with
  | zero =>
    have hnone : ∀ m ∈ e.models, m.holds = false := by
      intro m hm
      have hzero := List.sum_eq_zero_iff.mp (Nat.le_zero.mp hfuel)
      have hm0 := hzero _ (List.mem_map.mpr ⟨m, hm, rfl⟩)
      exact Bool.toNat_eq_zero.mp hm0
    refine ⟨hf, .refl _ _, ?_⟩
    rw [freeHost, hosted_eq_zero hnone, Nat.zero_add]
    exact hbytes
  | succ fuel ih =>
    rw [freeHost]
    split
    · next hover =>
      cases hold : e.oldest fun m => m.1.holds with
      | none =>
        have hnone : ∀ m ∈ e.models, m.holds = false := by
          intro m hm
          obtain ⟨j, hj⟩ := List.mem_iff_getElem?.mp hm
          exact oldest_eq_none hold hj
        rw [hosted_eq_zero hnone] at hover
        omega
      | some j =>
        obtain ⟨m, hm, hholds⟩ := oldest_eq_some hold
        have hok := hf.models m (List.mem_of_getElem? hm)
        have hnext : Fine k (e.modifyModel j Model.letGo) := by
          apply hf.modify hm (Model.becomes_letGo hok)
          · rw [Model.cost_letGo]
            exact Nat.add_le_add_right hf.vram _
          · rw [Model.held_letGo]
            exact hf.host.trans (Nat.le_add_right _ _)
        have hcount : (e.modifyModel j Model.letGo).holders + m.holds.toNat = _ :=
          sum_modify hm
        rw [Model.holds_letGo, show m.holds = true from hholds] at hcount
        change (e.modifyModel j Model.letGo).holders + 1 = e.holders at hcount
        obtain ⟨hfine, hroom, hfits⟩ := ih hnext (by omega) hbytes
        exact ⟨hfine, (room_modify hm (Model.aged_letGo _ m)).trans hroom, hfits⟩
    · next hfits => exact ⟨hf, .refl _ _, not_lt.mp hfits⟩

/-- What making room does not change. -/
def Steady (keep : Option ℕ) (Q : Engine → Prop) : Prop := ∀ e e', Room keep e e' → Q e → Q e'

variable {Q : Engine → Prop}

/-- What a model that stays does not lose, the one that room is made for does not. -/
theorem steady_at {R : Model → Prop}
    (hR : ∀ (stays : Prop) m m', stays → Model.Aged stays m m' → R m → R m') (i : ℕ) :
    Steady (some i) fun e => ∀ m, e.models[i]? = some m → R m := by
  intro e e' hroom hm m' hm'
  have hmodel := hroom.models i
  rw [hm'] at hmodel
  generalize hfound : e.models[i]? = found at hmodel
  cases hmodel with
  | some haged => exact hR _ _ m' rfl haged (hm _ hfound)

theorem Fine.out (hf : Fine k e) (h : e.models[j]? = some m) (hpin : m.load.pin = false) :
    Fine k (e.modifyModel j Model.out) := by
  apply hf.modify h (Model.becomes_out (hf.models m (List.mem_of_getElem? h)) hpin)
  · rw [Model.cost_out]
    exact hf.vram.trans (Nat.le_add_right _ _)
  · rw [Model.held_out]
    exact hf.host.trans (Nat.le_add_right _ _)

/-- A model that was moved out is parked where there is room. -/
theorem Fine.park {p : Parked} (hf : Fine k e) (h : e.models[j]? = some m)
    (hr : m.resident = false) (hfits : e.hosted + p.bytes ≤ e.host) :
    Fine k (e.modifyModel j fun m => { m with place := .host p }) := by
  have hok := hf.models m (List.mem_of_getElem? h)
  have hbecomes : m.Becomes { m with place := .host p } := by
    refine ⟨⟨fun _ => hok.towers hr, hok.marks, nofun, nofun, hok.chat⟩, rfl, rfl, fun _ hr' => ?_⟩
    rw [hr] at hr'
    cases hr'
  apply hf.modify h hbecomes
  · rw [Model.cost_of_not_resident hbecomes.ok rfl, Model.cost_of_not_resident hok hr]
    exact hf.vram
  · exact hfits.trans (Nat.le_add_right _ _)

/-- Model `j` is out of VRAM, and pinned memory was freed for it. -/
theorem Fine.free {bytes : ℕ} (hf : Fine k e) (h : e.models[j]? = some m)
    (hpin : m.load.pin = false) (hj : keep ≠ some j) (hbytes : bytes ≤ e.host)
    (he : e' = freeHost bytes (e.modifyModel j Model.out).models.length (e.modifyModel j Model.out)) :
    Fine k e' ∧ Room keep e e' ∧ e'.hosted + bytes ≤ e'.host ∧
      ∃ m', e'.models[j]? = some m' ∧ Model.Aged False m.out m' := by
  obtain ⟨hfine, hroom, hfits⟩ := freeHost_spec keep (hf.out h hpin) (holders_le _) hbytes
  rw [← he] at hfine hroom hfits
  refine ⟨hfine, (room_modify h (Model.aged_out hj hpin)).trans hroom, hfits.trans hroom.host.ge, ?_⟩
  have hmodel := hroom.models j
  rw [getElem?_modifyModel, if_pos rfl, h] at hmodel
  generalize e'.models[j]? = found at hmodel
  cases hmodel with
  | some haged => exact ⟨_, rfl, haged.same, haged.decoder, fun hs => haged.kept (hs.imp_left False.elim)⟩

theorem evict_spec (hQ : Steady keep Q) (j : ℕ) :
    ⦃fun e => ⌜Fine k e ∧ Q e ∧ keep ≠ some j ∧ ∀ m, e.models[j]? = some m → m.load.pin = false⌝⦄
    evict j
    ⦃post⟨fun _ e => ⌜Fine k e ∧ Q e⌝, fun _ e => ⌜Fine k e ∧ Q e⌝⟩⦄ := by
  mvcgen [evict, model, MonadExcept.ofExcept]
  · rename_i e h m hm _ d hd hbytes freed p hp _
    obtain ⟨hf, hq, hj, hpin⟩ := h
    obtain ⟨hfree, hroom, hfits, m', hm', haged⟩ := hf.free hm (hpin m hm) hj hbytes rfl
    have hcopied := (hf.models m (List.mem_of_getElem? hm)).copied d hd
    have hparked := (Nat.add_le_add_left (Decoder.bytes_park hcopied hp).le _).trans hfits
    refine ⟨hfree.park hm' (haged.resident_false rfl) hparked, ?_⟩
    apply hQ _ _ (hroom.trans _) hq
    apply room_modify hm'
    refine ⟨rfl, nofun, fun hs => ?_⟩
    rcases hs with hs | hs
    · exact absurd hs hj
    · rw [haged.load, show m.out.load = m.load from rfl, hpin m hm] at hs
      cases hs
  · rename_i e h m hm _ d hd hbytes _ err herr
    obtain ⟨hf, hq, hj, hpin⟩ := h
    obtain ⟨hfree, hroom, -, -⟩ := hf.free hm (hpin m hm) hj hbytes rfl
    exact ⟨hfree, hQ _ _ hroom hq⟩
  · rename_i e h m hm _ d hd _
    obtain ⟨hf, hq, hj, hpin⟩ := h
    exact ⟨hf.out hm (hpin m hm), hQ _ _ (room_modify hm (Model.aged_out hj (hpin m hm))) hq⟩
  · rename_i e h m hm _ _ _ _
    obtain ⟨hf, hq, hj, hpin⟩ := h
    exact ⟨hf.out hm (hpin m hm), hQ _ _ (room_modify hm (Model.aged_out hj (hpin m hm))) hq⟩
  · rename_i h _
    exact ⟨h.1, h.2.1⟩

/-- Room was made, or nothing more may go. -/
theorem room_spec (hQ : Steady keep Q) (need fuel : ℕ) :
    ⦃fun e => ⌜Fine k e ∧ Q e⌝⦄ room need keep fuel
    ⦃post⟨fun _ e => ⌜Fine k e ∧ Q e ∧ e.used + need ≤ e.vram⌝,
      fun _ e => ⌜Fine k e ∧ Q e⌝⟩⦄ := by
  induction fuel with
  | zero => mvcgen [room]
  | succ fuel ih =>
    have hevict := @evict_spec keep k Q hQ
    mvcgen [room, ih, hevict]
    · rename_i e h _ j hj
      obtain ⟨m, hm, hgo⟩ := oldest_eq_some hj
      simp only [mayGo, Bool.and_eq_true, decide_eq_true_eq, Bool.not_eq_true'] at hgo
      refine ⟨h.1, h.2, fun hk => hgo.1.1 hk.symm, fun m' hm' => ?_⟩
      obtain rfl := Option.some.inj (hm.symm.trans hm')
      exact hgo.1.2
    · rename_i e h hover
      exact ⟨h.1, h.2, not_lt.mp hover⟩

end Engine

end Chatlink.Tachyon
