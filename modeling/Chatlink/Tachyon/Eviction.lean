import Chatlink.Tachyon.Residency

/-!
# What making room moves out

Room is made in the order of last use: one model after the other goes, each only while the bytes do not fit, and
room fails for want of memory only when all that may go have gone. What leaves VRAM is parked where the host tier
has room for it, which is made by freeing pinned memory, and that always suffices.
-/
namespace Chatlink.Tachyon

open Lists (sum_modify argmin_first)

namespace Engine

variable {e e' e'' : Engine} {i j k : ℕ} {m : Model} {d : Decoder} {keep : Option ℕ}

/-! ## Pinned memory -/

theorem used_freeHost (bytes fuel : ℕ) (e : Engine) : (freeHost bytes fuel e).used = e.used := by
  induction fuel generalizing e with
  | zero => rfl
  | succ fuel ih =>
    rw [freeHost]
    split_ifs
    · cases hold : e.oldest fun m => m.1.holds with
      | none => rfl
      | some j =>
        obtain ⟨m, hm, -⟩ := oldest_eq_some hold
        have hused := used_modify (f := Model.letGo) hm
        rw [Model.cost_letGo] at hused
        exact (ih _).trans (by omega)
    · rfl

theorem room_freeHost (keep : Option ℕ) (bytes fuel : ℕ) (e : Engine) : Room keep e (freeHost bytes fuel e) := by
  induction fuel generalizing e with
  | zero => exact .refl _ _
  | succ fuel ih =>
    rw [freeHost]
    split_ifs
    · cases hold : e.oldest fun m => m.1.holds with
      | none => exact .refl _ _
      | some j =>
        obtain ⟨m, hm, -⟩ := oldest_eq_some hold
        exact (room_modify hm (Model.aged_letGo _ m)).trans (ih _)
    · exact .refl _ _

/-- The round after `n` rounds. -/
theorem freeHost_add (bytes n fuel : ℕ) (e : Engine) :
    freeHost bytes (n + fuel) e = freeHost bytes fuel (freeHost bytes n e) := by
  induction n generalizing e with
  | zero => rw [Nat.zero_add, freeHost]
  | succ n ih =>
    rw [Nat.succ_add, freeHost, freeHost]
    split_ifs with hover
    · cases hold : e.oldest fun m => m.1.holds with
      | none =>
        cases fuel with
        | zero => rfl
        | succ fuel =>
          simp only [freeHost, if_pos hover, hold]
      | some j => exact ih _
    · cases fuel with
      | zero => rfl
      | succ fuel => rw [freeHost, if_neg hover]

/-- Where bytes do not fit, something else holds pinned memory. -/
theorem oldest_ne_none {bytes : ℕ} (hbytes : bytes ≤ e.host) (hover : e.host < e.hosted + bytes) :
    e.oldest (fun m => m.1.holds) ≠ none := by
  intro hnone
  have hzero : e.hosted = 0 := by
    apply hosted_eq_zero
    intro m hm
    obtain ⟨j, hj⟩ := List.mem_iff_getElem?.mp hm
    exact oldest_eq_none hnone hj
  omega

/-- As many rounds as there are models suffice. -/
theorem freeHost_fits {bytes fuel : ℕ} (hbytes : bytes ≤ e.host) (hfuel : e.holders ≤ fuel) :
    (freeHost bytes fuel e).hosted + bytes ≤ e.host := by
  induction fuel generalizing e with
  | zero =>
    have hnone : ∀ m ∈ e.models, m.holds = false := by
      intro m hm
      have hzero := List.sum_eq_zero_iff.mp (Nat.le_zero.mp hfuel)
      exact Bool.toNat_eq_zero.mp (hzero _ (List.mem_map.mpr ⟨m, hm, rfl⟩))
    rw [freeHost, hosted_eq_zero hnone, Nat.zero_add]
    exact hbytes
  | succ fuel ih =>
    rw [freeHost]
    split_ifs with hover
    · cases hold : e.oldest fun m => m.1.holds with
      | none => exact absurd hold (oldest_ne_none hbytes hover)
      | some j =>
        obtain ⟨m, hm, hholds⟩ := oldest_eq_some hold
        have hcount : (e.modifyModel j Model.letGo).holders + m.holds.toNat = _ := sum_modify hm
        rw [Model.holds_letGo, show m.holds = true from hholds] at hcount
        change (e.modifyModel j Model.letGo).holders + 1 = e.holders at hcount
        exact ih hbytes (by omega)
    · exact not_lt.mp hover

/-! ## One model -/

/-- Model `j` was moved out, and only it. -/
structure Moved (j : ℕ) (e e' : Engine) : Prop where
  encoders : e'.encoders = e.encoders
  vram : e'.vram = e.vram
  host : e'.host = e.host
  out : ∀ m', e'.models[j]? = some m' → m'.resident = false ∧ m'.vision = none ∧ m'.audio = none
  models : ∀ k, Option.Rel (Model.Aged (k ≠ j)) e.models[k]? e'.models[k]?
  used : e'.used + ((e.models[j]?.map Model.cost).getD 0) = e.used

/-- Model `j` while pinned memory is freed for it. -/
def making (e : Engine) (j : ℕ) : Engine := e.modifyModel j Model.out

theorem after_model (hm : e.models[i]? = some m) : Fallible.after (model i) e = (.ok m, e) := by
  simp [Fallible.after, model, hm, bind, ExceptT.bind, ExceptT.mk, ExceptT.bindCont, StateT.bind, get, getThe,
    MonadStateOf.get, liftM, monadLift, MonadLift.monadLift, ExceptT.lift, StateT.get, pure, StateT.pure, ExceptT.pure,
    Functor.map, StateT.map]

theorem evict_run (hm : e.models[j]? = some m) (hd : m.place = .vram d) :
    Fallible.after (evict j) e =
      if d.parkedBytes ≤ e.host then
        let freed := freeHost d.parkedBytes e.models.length (e.making j)
        match (Fallible.after Decoder.park d).1 with
        | .ok p => (.ok (), freed.modifyModel j fun m => { m with place := .host p })
        | .error err => (.error err, freed)
      else (.ok (), e.making j) := by
  have hout : Fallible.after (modify (modifyModel j Model.out) : Eng Unit) e = (.ok (), e.making j) := rfl
  have hget : Fallible.after (get : Eng Engine) (e.making j) = (.ok (e.making j), e.making j) := rfl
  rw [evict, Fallible.after_bind_ok (after_model hm), Fallible.after_bind_ok hout, hd]
  dsimp only
  rw [Fallible.after_bind_ok hget]
  change Fallible.after (if d.parkedBytes ≤ e.host then _ else _) _ = _
  split_ifs with hfits
  · have hfree : Fallible.after (modify fun e => freeHost d.parkedBytes e.models.length e : Eng Unit) (e.making j) =
        (.ok (), freeHost d.parkedBytes e.models.length (e.making j)) := by
      change (_, freeHost d.parkedBytes (e.making j).models.length (e.making j)) = _
      rw [making, modifyModel, List.length_modify]
    rw [Fallible.after_bind_ok hfree]
    cases hpark : (Fallible.after Decoder.park d).1 with
    | ok p => rfl
    | error err => rfl
  · rfl

theorem rel_refl (stays : Prop) (o : Option Model) : Option.Rel (Model.Aged stays) o o := by
  cases o with
  | none => exact .none
  | some m => exact .some (.refl _ m)

theorem rel_trans {stays : Prop} {a b c : Option Model} (h : Option.Rel (Model.Aged stays) a b)
    (h' : Option.Rel (Model.Aged stays) b c) : Option.Rel (Model.Aged stays) a c := by
  cases h with
  | none =>
    cases h'
    exact .none
  | some h =>
    cases h' with
    | some h' => exact .some (h.trans h')

theorem aged_mono {stays stays' : Prop} {m m' : Model} (h : Model.Aged stays m m') (hs : stays' → stays) :
    Model.Aged stays' m m' :=
  ⟨h.same, h.decoder, fun hk => h.kept (hk.imp_left hs)⟩

theorem rel_mono {stays stays' : Prop} {a b : Option Model} (h : Option.Rel (Model.Aged stays) a b) (hs : stays' → stays) :
    Option.Rel (Model.Aged stays') a b := by
  cases h with
  | none => exact .none
  | some h => exact .some (aged_mono h hs)

theorem moved_making (hm : e.models[j]? = some m) (hpin : m.load.pin = false) : Moved j e (e.making j) where
  encoders := rfl
  vram := rfl
  host := rfl
  out := fun m' hm' => by
    rw [making, getElem?_modifyModel, if_pos rfl, hm] at hm'
    cases hm'
    exact ⟨rfl, rfl, rfl⟩
  models := fun k => by
    rw [making, getElem?_modifyModel]
    split_ifs with hjk
    · rw [← hjk, hm]
      exact .some (Model.aged_out (fun h => h rfl) hpin)
    · exact rel_refl _ _
  used := by
    have hused := used_modify (f := Model.out) hm
    rw [Model.cost_out] at hused
    rw [hm]
    exact hused

/-- Nothing that only frees pinned memory brings it back. -/
theorem Moved.room (h : Moved j e e') (hroom : ∀ keep, Room keep e' e'') (hused : e''.used = e'.used) : Moved j e e'' where
  encoders := (hroom none).encoders.trans h.encoders
  vram := (hroom none).vram.trans h.vram
  host := (hroom none).host.trans h.host
  out := fun m' hm' => by
    have hj := (hroom (some j)).models j
    rw [hm'] at hj
    generalize hmid : e'.models[j]? = mid at hj
    cases hj with
    | some haged =>
      obtain ⟨hr, hv, ha⟩ := haged.kept (.inl rfl)
      obtain ⟨hr', hv', ha'⟩ := h.out _ hmid
      exact ⟨hr.trans hr', hv.trans hv', ha.trans ha'⟩
  models := fun k => rel_trans (h.models k) (rel_mono ((hroom (some k)).models k) fun _ => rfl)
  used := by rw [hused, h.used]

theorem Moved.park (h : Moved j e e') (hm : e.models[j]? = some m) (hpin : m.load.pin = false) (p : Parked) :
    Moved j e (e'.modifyModel j fun m => { m with place := .host p }) where
  encoders := h.encoders
  vram := h.vram
  host := h.host
  out := fun m' hm' => by
    rw [getElem?_modifyModel, if_pos rfl] at hm'
    obtain ⟨m₁, hm₁, rfl⟩ := Option.map_eq_some_iff.mp hm'
    exact ⟨rfl, (h.out m₁ hm₁).2⟩
  models := fun k => by
    rw [getElem?_modifyModel]
    split_ifs with hjk
    · have hk := h.models k
      rw [← hjk] at hk ⊢
      rw [hm] at hk ⊢
      generalize hmid : e'.models[j]? = mid at hk
      cases hk with
      | some haged =>
        refine .some ⟨?_, nofun, fun hkept => ?_⟩
        · rw [haged.same]
        · obtain hne | hpin' := hkept
          · exact absurd rfl hne
          · rw [hpin] at hpin'
            cases hpin'
    · exact h.models k
  used := by
    rw [← h.used]
    congr 1
    have hmid := h.models j
    rw [hm] at hmid
    generalize hfound : e'.models[j]? = found at hmid
    cases hmid with
    | @some _ m₁ haged =>
      obtain ⟨hr, hv, ha⟩ := h.out _ hfound
      have hused := used_modify (f := fun m => { m with place := .host p }) hfound
      have hzero : m₁.cost = 0 := by simp [Model.cost, Model.towers, hr, hv, ha]
      have hzero' : ({ m₁ with place := .host p } : Model).cost = 0 := by
        simp [Model.cost, Model.towers, Model.resident, hv, ha]
      omega

/-- Whatever moving it out comes to, model `j` is out of VRAM and everything else is where it was. -/
theorem moved_evict (hm : e.models[j]? = some m) (hd : m.place = .vram d) (hpin : m.load.pin = false) :
    Moved j e (Fallible.after (evict j) e).2 := by
  have hmaking := moved_making hm hpin
  rw [evict_run hm hd]
  split_ifs with hfits
  · have hfreed := hmaking.room (fun keep => room_freeHost keep d.parkedBytes e.models.length (e.making j))
      (used_freeHost _ _ _)
    dsimp only
    split
    · exact hfreed.park hm hpin _
    · exact hfreed
  · exact hmaking

/-! ## All that may go -/

/-- The models that may leave VRAM. -/
def goers (keep : Option ℕ) (e : Engine) : Finset ℕ :=
  (Finset.range e.models.length).filter fun k => e.models[k]?.any fun m => mayGo keep (m, k)

/-- VRAM that model `k` takes. -/
def costAt (e : Engine) (k : ℕ) : ℕ := (e.models[k]?.map Model.cost).getD 0

def lastUse (e : Engine) (k : ℕ) : ℕ := (e.models[k]?.map Model.used).getD 0

/-- Model `j` was used before model `k`; of two last used at one time, the first in the list counts as that. -/
def Before (e : Engine) (j k : ℕ) : Prop := e.lastUse j < e.lastUse k ∨ e.lastUse j = e.lastUse k ∧ j < k

theorem mem_goers : k ∈ goers keep e ↔ ∃ m, e.models[k]? = some m ∧ mayGo keep (m, k) = true := by
  rw [goers, Finset.mem_filter, Finset.mem_range]
  constructor
  · rintro ⟨hk, hgo⟩
    rw [List.getElem?_eq_getElem hk, Option.any_some] at hgo
    exact ⟨_, List.getElem?_eq_getElem hk, hgo⟩
  · rintro ⟨m, hm, hgo⟩
    refine ⟨(List.getElem?_eq_some_iff.mp hm).1, ?_⟩
    rw [hm, Option.any_some]
    exact hgo

theorem card_goers_le (keep : Option ℕ) (e : Engine) : (goers keep e).card ≤ e.models.length :=
  (Finset.card_filter_le _ _).trans (Finset.card_range _).le

/-- The least recently used of those that may go. -/
theorem oldest_before (h : e.oldest (mayGo keep) = some j) :
    j ∈ goers keep e ∧ ∀ k ∈ goers keep e, k ≠ j → e.Before j k := by
  obtain ⟨m, hm, hgo⟩ := oldest_eq_some h
  refine ⟨mem_goers.mpr ⟨m, hm, hgo⟩, fun k hk hne => ?_⟩
  obtain ⟨m', hm', hgo'⟩ := mem_goers.mp hk
  obtain ⟨⟨m₀, j₀⟩, hmin, rfl⟩ := Option.map_eq_some_iff.mp h
  have hpair : (e.models.zipIdx.filter (mayGo keep)).Pairwise fun a b => a.2 < b.2 := by
    apply List.Pairwise.filter
    have hrange : (e.models.zipIdx.map Prod.snd).Pairwise (· < ·) := by
      rw [List.zipIdx_map_snd]
      exact List.pairwise_lt_range'
    exact List.pairwise_map.mp hrange
  have hm₀ := (List.mem_filter.mp (List.argmin_mem hmin)).1
  have hm₀' := List.mem_zipIdx_iff_getElem?.mp hm₀
  have hmem : (m', k) ∈ e.models.zipIdx.filter (mayGo keep) :=
    List.mem_filter.mpr ⟨List.mem_zipIdx_iff_getElem?.mpr hm', hgo'⟩
  have hfirst := argmin_first hpair hmin hmem
  rw [Before, lastUse, lastUse, hm', show e.models[j₀]? = some m₀ from hm₀']
  obtain hlt | ⟨heq, hsame | hlt⟩ := hfirst
  · exact .inl hlt
  · exact absurd (congrArg Prod.snd hsame).symm hne
  · exact .inr ⟨heq, hlt⟩

section Moved

variable (h : Moved j e e')
include h

theorem Moved.lastUse (k : ℕ) : e'.lastUse k = e.lastUse k := by
  have hk := h.models k
  rw [Engine.lastUse, Engine.lastUse]
  generalize e.models[k]? = a at hk
  generalize e'.models[k]? = b at hk
  cases hk with
  | none => rfl
  | some haged =>
    rw [haged.same]
    rfl

theorem Moved.costAt (hk : k ≠ j) : e'.costAt k = e.costAt k := by
  have hmodel := h.models k
  rw [Engine.costAt, Engine.costAt]
  generalize e.models[k]? = a at hmodel
  generalize e'.models[k]? = b at hmodel
  cases hmodel with
  | none => rfl
  | some haged =>
    obtain ⟨hr, hv, ha⟩ := haged.kept (.inl hk)
    have hneed : ∀ {m m' : Model}, m' = { m with place := m'.place, vision := m'.vision, audio := m'.audio } →
        m'.need = m.need := fun h => by rw [h]
    simp only [Option.map_some, Option.getD_some, Model.cost, Model.towers, hr, hv, ha, hneed haged.same]

theorem Moved.goers : Engine.goers keep e' = (Engine.goers keep e).erase j := by
  ext k
  rw [Finset.mem_erase, mem_goers, mem_goers]
  have hk := h.models k
  constructor
  · rintro ⟨m', hm', hgo⟩
    simp only [mayGo, Bool.and_eq_true, decide_eq_true_eq, Bool.not_eq_true'] at hgo
    have hne : k ≠ j := by
      rintro rfl
      rw [(h.out m' hm').1] at hgo
      cases hgo.2
    rw [hm'] at hk
    generalize e.models[k]? = a at hk
    cases hk with
    | @some m _ haged =>
      refine ⟨hne, m, rfl, ?_⟩
      simp only [mayGo, Bool.and_eq_true, decide_eq_true_eq, Bool.not_eq_true']
      exact ⟨⟨hgo.1.1, haged.load ▸ hgo.1.2⟩, (haged.kept (.inl hne)).1 ▸ hgo.2⟩
  · rintro ⟨hne, m, hm, hgo⟩
    simp only [mayGo, Bool.and_eq_true, decide_eq_true_eq, Bool.not_eq_true'] at hgo
    rw [hm] at hk
    generalize e'.models[k]? = b at hk
    cases hk with
    | @some _ m' haged =>
      refine ⟨m', rfl, ?_⟩
      simp only [mayGo, Bool.and_eq_true, decide_eq_true_eq, Bool.not_eq_true']
      exact ⟨⟨hgo.1.1, haged.load.symm ▸ hgo.1.2⟩, ((haged.kept (.inl hne)).1).trans hgo.2⟩

end Moved

/-! ## The order in which they go -/

/-- VRAM that the models `js` take. -/
def freed (e : Engine) (js : List ℕ) : ℕ := (js.map e.costAt).sum

/-- To make room for `need` bytes, the models `js` were moved out one after the other, and nothing else. -/
structure Made (need : ℕ) (keep : Option ℕ) (e : Engine) (js : List ℕ) (e' : Engine) : Prop where
  goers : ∀ j ∈ js, j ∈ e.goers keep
  order : js.Pairwise e.Before
  least : ∀ j ∈ js, ∀ k ∈ e.goers keep, k ∉ js → e.Before j k
  needed : ∀ n < js.length, e.vram < e.used - e.freed (js.take n) + need
  out : ∀ j ∈ js, ∀ m, e'.models[j]? = some m → m.resident = false ∧ m.vision = none ∧ m.audio = none
  rest : ∀ k, k ∉ js → Option.Rel (Model.Aged True) e.models[k]? e'.models[k]?
  used : e'.used + e.freed js = e.used
  vram : e'.vram = e.vram
  encoders : e'.encoders = e.encoders

variable {need : ℕ} {js : List ℕ}

theorem made_nil (need : ℕ) (keep : Option ℕ) (e : Engine) : Made need keep e [] e where
  goers := nofun
  order := .nil
  least := nofun
  needed := nofun
  out := nofun
  rest := fun _ _ => rel_refl _ _
  used := rfl
  vram := rfl
  encoders := rfl

theorem Moved.freed (h : Moved j e e') (hjs : j ∉ js) : e'.freed js = e.freed js := by
  rw [Engine.freed, Engine.freed, List.map_congr_left]
  intro k hk
  exact h.costAt (ne_of_mem_of_not_mem hk hjs)

/-- The oldest goes, as the bytes do not fit, and then others. -/
theorem Made.cons (hmoved : Moved j e e') (hfirst : j ∈ e.goers keep ∧ ∀ k ∈ e.goers keep, k ≠ j → e.Before j k)
    (hover : e.vram < e.used + need) (h : Made need keep e' js e'') : Made need keep e (j :: js) e'' := by
  have hgoers : ∀ k ∈ js, k ∈ e.goers keep ∧ k ≠ j := by
    intro k hk
    have hk' := h.goers k hk
    rw [hmoved.goers, Finset.mem_erase] at hk'
    exact hk'.symm
  have hnot : j ∉ js := fun hj => (hgoers j hj).2 rfl
  have hbefore : ∀ a b, e'.Before a b ↔ e.Before a b := by
    intro a b
    rw [Before, Before, hmoved.lastUse, hmoved.lastUse]
  have hcost : e'.used + e.costAt j = e.used := hmoved.used
  have hsum : ∀ l : List ℕ, j ∉ l → e.freed (j :: l) = e.costAt j + e'.freed l := by
    intro l hl
    rw [hmoved.freed hl, Engine.freed, List.map_cons, List.sum_cons, Engine.freed]
  refine ⟨?_, ?_, ?_, ?_, ?_, ?_, ?_, h.vram.trans hmoved.vram, h.encoders.trans hmoved.encoders⟩
  · exact List.forall_mem_cons.mpr ⟨hfirst.1, fun k hk => (hgoers k hk).1⟩
  · refine List.pairwise_cons.mpr ⟨fun k hk => hfirst.2 k (hgoers k hk).1 (hgoers k hk).2, ?_⟩
    exact h.order.imp fun hab => (hbefore _ _).mp hab
  · intro i hi k hk hout
    rw [List.mem_cons, not_or] at hout
    obtain rfl | hi := List.mem_cons.mp hi
    · exact hfirst.2 k hk hout.1
    · have hk' : k ∈ e'.goers keep := by
        rw [hmoved.goers, Finset.mem_erase]
        exact ⟨hout.1, hk⟩
      exact (hbefore _ _).mp (h.least i hi k hk' hout.2)
  · intro n hn
    cases n with
    | zero => exact hover
    | succ n =>
      have hneed := h.needed n (Nat.lt_of_succ_lt_succ hn)
      rw [hmoved.vram] at hneed
      rw [List.take_succ_cons, hsum _ fun hj => hnot (List.mem_of_mem_take hj)]
      omega
  · intro i hi m hm
    obtain rfl | hi := List.mem_cons.mp hi
    · have hrest := h.rest i hnot
      rw [hm] at hrest
      generalize hmid : e'.models[i]? = mid at hrest
      cases hrest with
      | some haged =>
        obtain ⟨hr, hv, ha⟩ := haged.kept (.inl trivial)
        obtain ⟨hr', hv', ha'⟩ := hmoved.out _ hmid
        exact ⟨hr.trans hr', hv.trans hv', ha.trans ha'⟩
    · exact h.out i hi m hm
  · intro k hk
    rw [List.mem_cons, not_or] at hk
    exact rel_trans (rel_mono (hmoved.models k) fun _ => hk.1) (h.rest k hk.2)
  · have hused := h.used
    rw [hsum js hnot]
    omega

/-- How it ended: the bytes fit, or all that may go are out and they do not, or the last one failed to park. -/
def Ended (need : ℕ) (keep : Option ℕ) (e : Engine) (js : List ℕ) (r : Except Error Unit × Engine) : Prop :=
  match r.1 with
  | .ok _ => r.2.used + need ≤ e.vram
  | .error err =>
    (err = .outOfMemory need (e.vram - r.2.used) ∧ e.vram < r.2.used + need ∧ js.toFinset = e.goers keep) ∨
    ∃ j m d kept, js.getLast? = some j ∧ e.models[j]? = some m ∧ m.place = .vram d ∧
      (Fallible.after Decoder.park { d with shadow := kept }).1 = .error err

theorem Ended.cons {r : Except Error Unit × Engine} (hmoved : Moved j e e') (hj : j ∈ e.goers keep)
    (h : Ended need keep e' js r) : Ended need keep e (j :: js) r := by
  unfold Ended at h ⊢
  rw [hmoved.vram] at h
  split
  · next hr => simpa only [hr] using h
  · next err hr =>
    simp only [hr] at h
    refine h.imp ?_ ?_
    · rintro ⟨herr, hover, hall⟩
      refine ⟨herr, hover, ?_⟩
      rw [List.toFinset_cons, hall, hmoved.goers, Finset.insert_erase hj]
    · rintro ⟨i, m', d', kept, hlast, hm', hd', hpark⟩
      have hmodel := hmoved.models i
      rw [hm'] at hmodel
      generalize hfound : e.models[i]? = found at hmodel
      cases hmodel with
      | @some m _ haged =>
        obtain ⟨d, hd, hsame⟩ := haged.decoder d' hd'
        refine ⟨i, m, d, kept, ?_, hfound, hd, ?_⟩
        · rw [List.getLast?_cons, hlast, Option.getD_some]
        · rw [hsame] at hpark
          exact hpark

theorem after_room (need : ℕ) (keep : Option ℕ) (fuel : ℕ) (e : Engine) :
    Fallible.after (room need keep (fuel + 1)) e =
      if e.vram < e.used + need then
        match e.oldest (mayGo keep) with
        | some j =>
          match Fallible.after (evict j) e with
          | (.ok _, e') => Fallible.after (room need keep fuel) e'
          | (.error err, e') => (.error err, e')
        | none => (.error (.outOfMemory need (e.vram - e.used)), e)
      else (.ok (), e) := by
  have hget : Fallible.after (get : Eng Engine) e = (.ok e, e) := rfl
  rw [room, Fallible.after_bind_ok hget]
  split_ifs with hover
  · cases e.oldest (mayGo keep) with
    | none => rfl
    | some j =>
      dsimp only
      rcases hrun : Fallible.after (evict j) e with ⟨err | u, e'⟩
      · exact Fallible.after_bind_error hrun
      · exact Fallible.after_bind_ok hrun
  · rfl

/-- Making room: as few as need be, in the order of last use. -/
theorem room_made (need : ℕ) (keep : Option ℕ) {fuel : ℕ} (e : Engine) (hfuel : (e.goers keep).card < fuel) :
    ∃ js, Made need keep e js (Fallible.after (room need keep fuel) e).2 ∧
      Ended need keep e js (Fallible.after (room need keep fuel) e) := by
  induction fuel generalizing e with
  | zero => exact absurd hfuel (Nat.not_lt_zero _)
  | succ fuel ih =>
    rw [after_room]
    split_ifs with hover
    · cases hold : e.oldest (mayGo keep) with
      | none =>
        refine ⟨[], made_nil _ _ _, .inl ⟨rfl, hover, ?_⟩⟩
        symm
        rw [List.toFinset_nil, Finset.eq_empty_iff_forall_notMem]
        intro k hk
        obtain ⟨m, hm, hgo⟩ := mem_goers.mp hk
        rw [oldest_eq_none hold hm] at hgo
        cases hgo
      | some j =>
        have hfirst := oldest_before hold
        obtain ⟨m, hm, hgo⟩ := oldest_eq_some hold
        simp only [mayGo, Bool.and_eq_true, decide_eq_true_eq, Bool.not_eq_true'] at hgo
        obtain ⟨d, hd⟩ := Model.resident_iff.mp hgo.2
        have hmoved := moved_evict hm hd hgo.1.2
        dsimp only
        rcases hrun : Fallible.after (evict j) e with ⟨err | u, e'⟩
        · rw [hrun] at hmoved
          refine ⟨[j], Made.cons hmoved hfirst hover (made_nil _ _ _), .inr ⟨j, m, d, d.shadow, rfl, hm, hd, ?_⟩⟩
          rw [evict_run hm hd] at hrun
          split_ifs at hrun with hfits
          · dsimp only at hrun
            split at hrun
            · cases hrun
            · next err' hpark =>
              cases hrun
              exact hpark
          · cases hrun
        · rw [hrun] at hmoved
          have hcard : (e'.goers keep).card < fuel := by
            rw [hmoved.goers, Finset.card_erase_of_mem hfirst.1]
            have := Finset.card_pos.mpr ⟨j, hfirst.1⟩
            omega
          obtain ⟨js, hmade, hended⟩ := ih e' hcard
          exact ⟨j :: js, hmade.cons hmoved hfirst hover, hended.cons hmoved hfirst.1⟩
    · exact ⟨[], made_nil _ _ _, not_lt.mp hover⟩

/-- The driver parks whatever may go, with or without a copy of its weights. -/
def Parks (keep : Option ℕ) (e : Engine) : Prop :=
  ∀ j ∈ e.goers keep, ∀ m d, e.models[j]? = some m → m.place = .vram d →
    ∀ kept, ∃ p, (Fallible.after Decoder.park { d with shadow := kept }).1 = .ok p

theorem Made.nodup (h : Made need keep e js e') : js.Nodup :=
  h.order.imp fun hab heq => by
    rw [heq, Before] at hab
    omega

theorem Made.freed_le (h : Made need keep e js e') : e.freed js ≤ ∑ j ∈ e.goers keep, e.costAt j := by
  have hsub : js.toFinset ⊆ e.goers keep := fun j hj => h.goers j (List.mem_toFinset.mp hj)
  rw [freed, ← List.sum_toFinset _ h.nodup]
  exact Finset.sum_le_sum_of_subset hsub

/-- Where the driver parks what goes, room fails exactly when not even all that may go would do. -/
theorem room_fails_iff {fuel : ℕ} (hfuel : (e.goers keep).card < fuel) (hparks : Parks keep e) :
    (∃ err, (Fallible.after (room need keep fuel) e).1 = .error err) ↔
      e.vram < e.used - ∑ j ∈ e.goers keep, e.costAt j + need := by
  obtain ⟨js, hmade, hended⟩ := room_made need keep e hfuel
  have hused := hmade.used
  have hle := hmade.freed_le
  unfold Ended at hended
  constructor
  · rintro ⟨err, herr⟩
    rw [herr] at hended
    obtain ⟨-, hover, hall⟩ | ⟨j, m, d, kept, hlast, hm, hd, hpark⟩ := hended
    · have hsum : e.freed js = ∑ j ∈ e.goers keep, e.costAt j := by
        rw [freed, ← List.sum_toFinset _ hmade.nodup, hall]
      omega
    · obtain ⟨p, hp⟩ := hparks j (hmade.goers j (List.mem_of_getLast? hlast)) m d hm hd kept
      rw [hp] at hpark
      cases hpark
  · intro hover
    cases hres : (Fallible.after (room need keep fuel) e).1 with
    | error err => exact ⟨err, rfl⟩
    | ok u =>
      rw [hres] at hended
      dsimp only at hended
      omega

/-- The rounds that free pinned memory come to an end, and always find some to free. -/
theorem freeHost_ends {bytes : ℕ} (hbytes : bytes ≤ e.host) :
    (∀ n, e.models.length ≤ n → freeHost bytes n e = freeHost bytes e.models.length e) ∧
      ∀ n, (freeHost bytes n e).host < (freeHost bytes n e).hosted + bytes →
        (freeHost bytes n e).oldest (fun m => m.1.holds) ≠ none := by
  constructor
  · intro n hn
    obtain ⟨r, rfl⟩ := Nat.exists_eq_add_of_le hn
    have hfits := freeHost_fits hbytes (holders_le e)
    have hhost := (room_freeHost none bytes e.models.length e).host
    rw [freeHost_add]
    cases r with
    | zero => rfl
    | succ r => rw [freeHost, if_neg (by omega)]
  · intro n
    exact oldest_ne_none (hbytes.trans (room_freeHost none bytes n e).host.ge)

/-- A model whose bytes fit the host tier is parked there, within its limit. -/
theorem evict_parks {p : Parked} (hm : e.models[j]? = some m) (hd : m.place = .vram d) (hcopied : d.Copied)
    (hbytes : d.parkedBytes ≤ e.host) (hpark : (Fallible.after Decoder.park d).1 = .ok p) :
    (Fallible.after (evict j) e).1 = .ok () ∧
      ((Fallible.after (evict j) e).2.models[j]?.map Model.place = some (.host p)) ∧
      (Fallible.after (evict j) e).2.hosted ≤ e.host := by
  have hfits : (freeHost d.parkedBytes e.models.length (e.making j)).hosted + d.parkedBytes ≤ e.host := by
    refine freeHost_fits (e := e.making j) hbytes ?_
    have := holders_le (e.making j)
    rwa [making, modifyModel, List.length_modify] at this
  rw [evict_run hm hd, if_pos hbytes]
  simp only [hpark]
  have hroom := (room_freeHost none d.parkedBytes e.models.length (e.making j)).models j
  rw [making, getElem?_modifyModel, if_pos rfl, hm] at hroom
  generalize hfound : (freeHost d.parkedBytes e.models.length (e.making j)).models[j]? = found at hroom
  rw [making] at hfound hfits ⊢
  rw [hfound] at hroom
  cases hroom with
  | @some _ m' haged =>
    refine ⟨trivial, ?_, ?_⟩
    · rw [getElem?_modifyModel, if_pos rfl, hfound]
      rfl
    · have hhosted := hosted_modify (f := fun m => { m with place := .host p }) hfound
      have hp := Decoder.bytes_park hcopied hpark
      change _ = _ + p.bytes at hhosted
      omega

/-- Parking takes two calls of the driver at most. -/
theorem park_ok (h : 2 ≤ d.alive) (kept : Option ℕ) :
    ∃ p, (Fallible.after Decoder.park { d with shadow := kept }).1 = .ok p := by
  obtain ⟨a, ha⟩ : ∃ a, d.alive = a + 2 := ⟨d.alive - 2, by omega⟩
  cases kept with
  | none =>
    refine ⟨{ weights := d.weights, table := d.table, hidden := d.hidden }, ?_⟩
    simp [Fallible.after, Decoder.park, Decoder.stop, Decoder.call, ha, bind, ExceptT.bind, ExceptT.mk, ExceptT.bindCont,
      StateT.bind, get, getThe, MonadStateOf.get, set, MonadStateOf.set, liftM, monadLift, MonadLift.monadLift,
      ExceptT.lift, StateT.get, StateT.set, pure, StateT.pure, ExceptT.pure, Functor.map, StateT.map]
  | some kept =>
    refine ⟨{ weights := kept, table := d.table, hidden := d.hidden }, ?_⟩
    simp [Fallible.after, Decoder.park, Decoder.stop, Decoder.call, ha, bind, ExceptT.bind, ExceptT.mk, ExceptT.bindCont,
      StateT.bind, get, getThe, MonadStateOf.get, set, MonadStateOf.set, liftM, monadLift, MonadLift.monadLift,
      ExceptT.lift, StateT.get, StateT.set, pure, StateT.pure, ExceptT.pure, Functor.map, StateT.map]

/-- Room is made in the order of last use and only as needed, and what is moved out is parked where it fits. -/
theorem makes_room :
    (∀ (e : Engine) (need : ℕ) (keep : Option ℕ) (fuel : ℕ), e.models.length < fuel →
      (∃ js, Made need keep e js (Fallible.after (room need keep fuel) e).2 ∧
        Ended need keep e js (Fallible.after (room need keep fuel) e)) ∧
      (Parks keep e → ((∃ err, (Fallible.after (room need keep fuel) e).1 = .error err) ↔
        e.vram < e.used - ∑ j ∈ e.goers keep, e.costAt j + need))) ∧
    ∀ (e : Engine) (j : ℕ) (m : Model) (d : Decoder), e.models[j]? = some m → m.place = .vram d →
      d.parkedBytes ≤ e.host →
        (∀ n, e.models.length ≤ n →
          freeHost d.parkedBytes n (e.making j) = freeHost d.parkedBytes e.models.length (e.making j)) ∧
        (∀ n, (freeHost d.parkedBytes n (e.making j)).host < (freeHost d.parkedBytes n (e.making j)).hosted + d.parkedBytes →
          (freeHost d.parkedBytes n (e.making j)).oldest (fun m => m.1.holds) ≠ none) ∧
        ∀ p, d.Copied → (Fallible.after Decoder.park d).1 = .ok p →
          (Fallible.after (evict j) e).1 = .ok () ∧
            (Fallible.after (evict j) e).2.models[j]?.map Model.place = some (.host p) ∧
            (Fallible.after (evict j) e).2.hosted ≤ e.host := by
  refine ⟨fun e need keep fuel hfuel => ?_, fun e j m d hm hd hbytes => ?_⟩
  · have hcard : (e.goers keep).card < fuel := (card_goers_le keep e).trans_lt hfuel
    exact ⟨room_made need keep e hcard, room_fails_iff hcard⟩
  · have hlength : (e.making j).models.length = e.models.length := by rw [making, modifyModel, List.length_modify]
    obtain ⟨hends, hfinds⟩ := freeHost_ends (e := e.making j) hbytes
    rw [hlength] at hends
    exact ⟨hends, hfinds, fun p hcopied => evict_parks hm hd hcopied hbytes⟩

/-- A small model. -/
def guest (name : String) (used : ℕ) (place : Place) : Model where
  name := name
  dir := name
  load := {}
  tok := { specials := [], bytes := fun _ => "", encode := fun _ => [], piece := fun _ => "", rest := fun _ => "" }
  chat := { bos := 0, turn := 0, ending := 0, think := 0, image := none, audio := none, budget := 0, closed := none }
  ends := []
  need := 4
  used := used
  until_ := none
  place := place
  vision := none
  audio := none

/-- Two models in VRAM and one that is parked, with no room left anywhere. -/
def full : Engine :=
  let d : Decoder := { weights := 3, table := 1, hidden := 8, chunk := 1, alive := 9 }
  { models := [guest "a" 2 (.vram d), guest "b" 1 (.vram d), guest "c" 0 (.host { weights := 3, table := 1, hidden := 8 })]
    vram := 8, host := 4 }

theorem makes_room_full :
    (∃ js, Made 4 none full js (Fallible.after (room 4 none 4) full).2 ∧
      Ended 4 none full js (Fallible.after (room 4 none 4) full)) ∧
    ((∃ err, (Fallible.after (room 4 none 4) full).1 = .error err) ↔
      full.vram < full.used - ∑ j ∈ full.goers none, full.costAt j + 4) ∧
    ((Fallible.after (evict 1) full).2.hosted ≤ full.host) := by
  obtain ⟨hroom, hevict⟩ := makes_room
  obtain ⟨hmade, hfails⟩ := hroom full 4 none 4 (by decide)
  refine ⟨hmade, hfails ?_, ?_⟩
  · intro j _ m d hm hd kept
    apply park_ok
    have hmem := List.mem_of_getElem? hm
    simp only [full, List.mem_cons, List.not_mem_nil, or_false] at hmem
    obtain rfl | rfl | rfl := hmem
    · cases hd
      decide
    · cases hd
      decide
    · cases hd
  · obtain ⟨-, -, hparks⟩ := hevict full 1 _ _ rfl rfl (by decide)
    exact (hparks _ (.inl rfl) rfl).2.2

/-- A model in VRAM that the driver fails to park. -/
def failing : Engine where
  models := [guest "a" 0 (.vram { weights := 3, table := 1, hidden := 8, chunk := 1, alive := 0 })]
  vram := 4
  host := 4

/-- Room fails with the model that could not be parked, though without it the bytes fit. -/
theorem room_fails_early :
    (Fallible.after (room 4 none 2) failing).1 = .error .cuda ∧
      ¬failing.vram < failing.used - ∑ j ∈ failing.goers none, failing.costAt j + 4 := by
  constructor
  · rfl
  · decide
end Engine

end Chatlink.Tachyon
