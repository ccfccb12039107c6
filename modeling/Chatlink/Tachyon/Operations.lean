import Chatlink.Tachyon.Residency

/-!
# The engine's operations

Every operation keeps the plan it is under, at each point where it may fail: the limits, the
towers and the names hold, and what is pinned stays. While an answer is generated, its decoder
is never further than the tokens that may still come allow.
-/
namespace Chatlink.Tachyon.Engine

open Std.Do

set_option mvcgen.warning false

variable {e e' : Engine} {i j : ℕ} {m : Model} {k : Plan} {w : World}

/-! ### Into VRAM -/

/-- A model comes into VRAM as decoder `d`, where there is room for it. -/
theorem Fine.bring {f : Model → Model} {d : Decoder} (hf : Fine k e) (h : e.models[i]? = some m)
    (hr : m.resident = false) (hfm : f m = { m with place := .vram d }) (hd : d.Copied)
    (hfed : d.fed = []) (hvram : e.used + m.need ≤ e.vram)
    (hhost : e.hosted + d.shadowBytes ≤ e.host) : Fine k (e.modifyModel i f) := by
  have hok := hf.models m (List.mem_of_getElem? h)
  have hbecomes : m.Becomes (f m) := by
    rw [hfm]
    refine ⟨⟨nofun, hok.marks, fun d' hd' => ?_, fun d' hd' => ?_, hok.chat⟩, rfl, rfl, fun _ _ => rfl⟩
    · obtain rfl := Place.vram.inj hd'
      exact hd
    · obtain rfl := Place.vram.inj hd'
      rw [hfed]
      exact fun _ => nofun
  apply hf.modify h hbecomes
  · obtain ⟨hv, ha⟩ := hok.towers hr
    have hcost : (f m).cost = m.need := by
      simp [hfm, Model.cost, Model.towers, hv, ha, Model.resident]
    rw [hcost]
    exact hvram.trans (Nat.le_add_right _ _)
  · rw [hfm]
    exact hhost.trans (Nat.le_add_right _ _)

/-- A model that is not in VRAM goes to disk. -/
theorem Fine.disk (hf : Fine k e) (h : e.models[i]? = some m) (hr : m.resident = false) :
    Fine k (e.modifyModel i fun m => { m with place := .disk }) := by
  have hok := hf.models m (List.mem_of_getElem? h)
  have hbecomes : m.Becomes { m with place := .disk } := by
    refine ⟨⟨fun _ => hok.towers hr, hok.marks, nofun, nofun, hok.chat⟩, rfl, rfl, fun _ hr' => ?_⟩
    rw [hr] at hr'
    cases hr'
  apply hf.modify h hbecomes
  · rw [Model.cost_of_not_resident hbecomes.ok rfl]
    exact hf.vram.trans (Nat.le_add_right _ _)
  · exact hf.host.trans (Nat.le_add_right _ _)

theorem resident_modify {f : Model → Model} {d : Decoder} (h : e.models[i]? = some m)
    (hfm : f m = { m with place := .vram d }) :
    ∃ m, (e.modifyModel i f).models[i]? = some m ∧ m.resident = true := by
  refine ⟨f m, ?_, by rw [hfm]; rfl⟩
  rw [getElem?_modifyModel, if_pos rfl, h]
  rfl

theorem bring_spec (i : ℕ) :
    ⦃fun e => ⌜Fine k e ∧ ∀ m, e.models[i]? = some m → m.resident = false →
      e.used + m.need ≤ e.vram⌝⦄ bring w i
    ⦃post⟨fun _ e => ⌜Fine k e ∧ ∃ m, e.models[i]? = some m ∧ m.resident = true⌝,
      fun _ e => ⌜Fine k e⌝⟩⦄ := by
  mvcgen [bring, model, MonadExcept.ofExcept]
  · rename_i e h m hm d hd
    exact ⟨h.1, m, hm, Model.resident_vram hd⟩
  · rename_i e h m hm p hp _ _ _
    obtain ⟨hf, hfits⟩ := h
    have hr : m.resident = false := by simp [Model.resident, hp]
    have hdisk := hf.disk hm hr
    have hm' : (e.modifyModel i fun m => { m with place := .disk }).models[i]? =
        some { m with place := .disk } := by
      rw [getElem?_modifyModel, if_pos rfl, hm]
      rfl
    have hused := used_modify (f := fun m => { m with place := .disk }) hm
    have hhosted := hosted_modify (f := fun m => { m with place := .disk }) hm
    rw [Model.cost_of_not_resident (hdisk.models _ (List.mem_of_getElem? hm')) rfl] at hused
    have hheld : m.held = p.weights + p.table := by simp [Model.held, hp, Parked.bytes]
    have hdisked : ({ m with place := .disk } : Model).held = 0 := rfl
    refine ⟨hdisk.bring hm' rfl rfl (.inr rfl) rfl ?_ ?_, resident_modify hm' rfl⟩
    · have hneed := hfits m hm hr
      change _ + m.need ≤ e.vram
      omega
    · have hhost := hf.host
      change _ + p.weights ≤ e.host
      omega
  · rename_i e h m hm p hp _ _
    exact h.1.disk hm (by simp [Model.resident, hp])
  · rename_i e h m hm hp sizes _ _
    obtain ⟨hf, hfits⟩ := h
    have hr : m.resident = false := by simp [Model.resident, hp]
    refine ⟨hf.bring hm hr rfl (.inl rfl) rfl (hfits m hm hr) hf.host, resident_modify hm rfl⟩
  · rename_i h _ _ _ _ _
    exact h.1
  · rename_i h _
    exact h.1

theorem resident_spec (i : ℕ) :
    ⦃fun e => ⌜Fine k e⌝⦄ resident w i
    ⦃post⟨fun _ e => ⌜Fine k e ∧ ∃ m, e.models[i]? = some m ∧ m.resident = true⌝,
      fun _ e => ⌜Fine k e⌝⟩⦄ := by
  have hbring := @bring_spec k w
  have hsteady : ∀ need, Steady (some i) fun e => ∀ m, e.models[i]? = some m → m.need = need := by
    intro need
    apply steady_at
    intro _ m m' _ haged hneed
    rw [haged.same]
    exact hneed
  have hroom := fun need => room_spec (k := k) (hsteady need) need
  mvcgen [resident, model, hroom, hbring]
  · rename_i e hf m hm _ _
    refine ⟨hf, fun m' hm' => ?_⟩
    obtain rfl := Option.some.inj (hm.symm.trans hm')
    rfl
  · rename_i e h
    obtain ⟨hf, hneed, hfits⟩ := h
    refine ⟨hf, fun m hm _ => ?_⟩
    rw [hneed m hm]
    exact hfits
  · exact fun hf _ => hf
  · rename_i e hf m hm _ hr
    refine ⟨hf, fun m' hm' hr' => ?_⟩
    obtain rfl := Option.some.inj (hm.symm.trans hm')
    simp [hr'] at hr

/-! ### On a decoder -/

/-- Model `i`'s decoder, in VRAM, is as `A` says for the model's context and its own shape. -/
def Runs (i : ℕ) (A : ℕ → ℕ × Option ℕ → Decoder → Prop) (e : Engine) : Prop :=
  ∀ m, e.models[i]? = some m → ∀ d, m.place = .vram d → A m.load.settings.context d.shape d

/-- What a run on model `i`'s decoder does not change. -/
def Settled (i : ℕ) (Q : Engine → Prop) : Prop :=
  ∀ e d, Q e → Q (e.modifyModel i fun m => { m with place := .vram d })

variable {A B E : ℕ → ℕ × Option ℕ → Decoder → Prop} {Q : Engine → Prop}

theorem Runs.modify {d : Decoder} (h : e.models[i]? = some m)
    (hd : A m.load.settings.context d.shape d) :
    Runs i A (e.modifyModel i fun m => { m with place := .vram d }) := by
  intro m' hm' d' hd'
  rw [getElem?_modifyModel, if_pos rfl, h] at hm'
  obtain rfl := Option.some.inj hm'
  obtain rfl := Place.vram.inj hd'
  exact hd

theorem settled_at {R : Model → Prop} (hR : ∀ m d, R m → R { m with place := .vram d }) (i : ℕ) :
    Settled i fun e => ∀ m, e.models[i]? = some m → R m := by
  intro e d hQ m' hm'
  rw [getElem?_modifyModel, if_pos rfl] at hm'
  obtain ⟨m, hm, rfl⟩ := Option.map_eq_some_iff.mp hm'
  exact hR m d (hQ m hm)

/-- A decoder goes on, of the same shape and within its context. -/
theorem Fine.decoder {d d' : Decoder} (hf : Fine k e) (h : e.models[i]? = some m)
    (hd : m.place = .vram d) (hd' : d'.Within m.load.settings.context d.shape) :
    Fine k (e.modifyModel i fun m => { m with place := .vram d' }) := by
  have hok := hf.models m (List.mem_of_getElem? h)
  obtain ⟨hweights, hshadow⟩ := Prod.mk.inj hd'.2
  have hbecomes : m.Becomes { m with place := .vram d' } := by
    refine ⟨⟨nofun, hok.marks, fun d'' heq => ?_, fun d'' heq => ?_, hok.chat⟩, rfl, rfl, fun _ _ => rfl⟩
    · obtain rfl := Place.vram.inj heq
      have hcopied := hok.copied d hd
      rw [Decoder.Copied, ← hweights, ← hshadow] at hcopied
      exact hcopied
    · obtain rfl := Place.vram.inj heq
      exact hd'.1
  apply hf.modify h hbecomes
  · have hcost : ({ m with place := .vram d' } : Model).cost = m.cost := by
      simp [Model.cost, Model.towers, Model.resident, hd]
    rw [hcost]
    exact Nat.add_le_add_right hf.vram _
  · have hheld : ({ m with place := .vram d' } : Model).held = m.held := by
      simp [Model.held, hd, Decoder.shadowBytes, hshadow]
    rw [hheld]
    exact Nat.add_le_add_right hf.host _

/-- What a run on a decoder is held to, it is held to on model `i`'s. -/
theorem onDecoder_spec {α : Type} {y : Gpu α}
    (hy : ∀ n c, ⦃fun d => ⌜A n c d⌝⦄ y ⦃post⟨fun _ d => ⌜B n c d⌝, fun _ d => ⌜E n c d⌝⟩⦄)
    (hB : ∀ n c d, B n c d → d.Within n c) (hE : ∀ n c d, E n c d → d.Within n c)
    (hQ : Settled i Q) :
    ⦃fun e => ⌜Fine k e ∧ Q e ∧ Runs i A e⌝⦄ onDecoder i y
    ⦃post⟨fun _ e => ⌜Fine k e ∧ Q e ∧ Runs i B e⌝,
      fun _ e => ⌜Fine k e ∧ Q e ∧ Runs i E e⌝⟩⦄ := by
  mvcgen [onDecoder, model, MonadExcept.ofExcept]
  · rename_i e h m hm d hd _ a ha
    obtain ⟨hf, hq, hruns⟩ := h
    have hrun := Fallible.of_triple (hy _ _) (hruns m hm d hd)
    rw [Fallible.Holds, ha] at hrun
    have hwithin := hB _ _ _ hrun
    refine ⟨hf.decoder hm hd hwithin, hQ e _ hq, Runs.modify hm ?_⟩
    rw [hwithin.2]
    exact hrun
  · rename_i e h m hm d hd _ err herr
    obtain ⟨hf, hq, hruns⟩ := h
    have hrun := Fallible.of_triple (hy _ _) (hruns m hm d hd)
    rw [Fallible.Holds, herr] at hrun
    have hwithin := hE _ _ _ hrun
    refine ⟨hf.decoder hm hd hwithin, hQ e _ hq, Runs.modify hm ?_⟩
    rw [hwithin.2]
    exact hrun
  · rename_i e h m hm place hnot hplace
    refine ⟨h.1, h.2.1, fun m' hm' d hd => ?_⟩
    obtain rfl := Option.some.inj (hm.symm.trans hm')
    exact absurd (hplace.symm.trans hd) (hnot d)
  · rename_i e h hnone
    refine ⟨h.1, h.2.1, fun m' hm' => ?_⟩
    rw [hnone] at hm'
    cases hm'

theorem stop_spec (hQ : Settled i Q) :
    ⦃fun e => ⌜Fine k e ∧ Q e⌝⦄ onDecoder i Decoder.stop
    ⦃post⟨fun _ e => ⌜Fine k e ∧ Q e⌝, fun _ e => ⌜Fine k e ∧ Q e⌝⟩⦄ := by
  have hon := onDecoder_spec (k := k) (A := fun n c d => d.Within n c)
    (B := fun n c d => d.Within n c) (E := fun n c d => d.Within n c)
    (fun n c => @Decoder.stop_spec n c) (fun _ _ _ h => h) (fun _ _ _ h => h) hQ
  mvcgen [hon]
  · rename_i e h
    refine ⟨h.1, h.2, fun m hm d hd => ⟨?_, rfl⟩⟩
    exact (h.1.models m (List.mem_of_getElem? hm)).fed d hd
  · exact fun hf hq _ => ⟨hf, hq⟩
  · exact fun hf hq _ => ⟨hf, hq⟩

/-! ### Expiry -/

theorem expireModel_spec (i : ℕ) :
    ⦃fun e => ⌜Fine k e⌝⦄ expireModel w i
    ⦃post⟨fun _ e => ⌜Fine k e⌝, fun _ e => ⌜Fine k e⌝⟩⦄ := by
  have hsettled : Settled i fun e => ∀ m, e.models[i]? = some m → m.load.pin = false :=
    settled_at (fun m d h => h) i
  have hstop := stop_spec (k := k) hsettled
  have hpin : ∀ m : Model, m.due w.now = true → m.load.pin = false := by
    intro m hdue
    simp only [Model.due, Bool.and_eq_true, Bool.not_eq_true'] at hdue
    exact hdue.1.2
  mvcgen [expireModel, model, hstop]
  · rename_i e hf m hm hdue _ _
    refine ⟨hf, fun m' hm' => ?_⟩
    obtain rfl := Option.some.inj (hm.symm.trans hm')
    exact hpin m hdue
  · rename_i e h _
    change Fine k (e.modifyModel i Model.out)
    cases hm : e.models[i]? with
    | none =>
      rw [modifyModel_of_none hm]
      exact h.1
    | some m => exact h.1.out hm (h.2 m hm)
  · exact fun hf _ => hf
  · rename_i e hf m hm hdue _ _ _
    exact hf.out hm (hpin m hdue)

theorem expireModels_spec (is : List ℕ) :
    ⦃fun e => ⌜Fine k e⌝⦄ expireModels w is
    ⦃post⟨fun _ e => ⌜Fine k e⌝, fun _ e => ⌜Fine k e⌝⟩⦄ := by
  have hone := @expireModel_spec k w
  induction is with
  | nil => mvcgen [expireModels]
  | cons i is ih => mvcgen [expireModels, hone, ih]

/-- Encoders go, but for the pinned ones. -/
theorem Fine.encoders {p : Held → Bool} (hf : Fine k e) (hp : ∀ h, h.pin = true → p h = true) :
    Fine k { e with encoders := e.encoders.filter p } := by
  have hsub : (e.encoders.filter p).Sublist e.encoders := List.filter_sublist
  have hnames := (List.Sublist.refl (e.models.map Model.name)).append (hsub.map Held.name)
  refine ⟨⟨?_, hf.host, hf.models, hf.names.sublist hnames⟩, hf.limits, hf.loading, hf.resident, ?_, ?_, hf.stream⟩
  · refine le_trans ?_ hf.vram
    rw [used_eq, used_eq]
    exact Nat.add_le_add_right ((hsub.map Held.bytes).sum_le_sum fun _ _ => Nat.zero_le _) _
  · intro n hn
    refine (hf.stays n hn).imp_right ?_
    rintro ⟨h, hmem, hname, hpin⟩
    exact ⟨h, List.mem_filter.mpr ⟨hmem, hp h hpin⟩, hname, hpin⟩
  · intro n hn hmem
    exact hf.absent n hn (hnames.subset hmem)

theorem expire_spec :
    ⦃fun e => ⌜Fine k e⌝⦄ expire w
    ⦃post⟨fun _ e => ⌜Fine k e⌝, fun _ e => ⌜Fine k e⌝⟩⦄ := by
  have hmodels := @expireModels_spec k w
  have hpinned : ∀ h : Held, h.pin = true →
      (h.pin || h.until_.all fun t => decide (w.now < t)) = true := by
    intro h hpin
    simp [hpin]
  mvcgen [expire, hmodels, trim]
  · exact ‹Fine k _›.encoders hpinned
  · exact ‹Fine k _›.encoders hpinned
  · exact ‹Fine k _›.encoders hpinned

/-! ### Loading -/

variable {limits : ℕ × ℕ} {P : String → Prop} {s : Option TokenStream} {name : String}

theorem fine_of_mem (hs : Sound e) (hlimits : (e.vram, e.host) = k.limits) (hk : k.loading = none)
    (hresident : ∀ m ∈ e.models, m.load.pin = true → m.resident = true)
    (hstays : ∀ n, k.stays n → (∃ m ∈ e.models, m.name = n ∧ m.load.pin = true) ∨
      ∃ h ∈ e.encoders, h.name = n ∧ h.pin = true)
    (habsent : ∀ n, k.absent n → n ∉ e.models.map Model.name ++ e.encoders.map Held.name)
    (hstream : e.stream = k.stream) : Fine k e := by
  refine ⟨hs, hlimits, fun i hi => ?_, fun j m _ hm => ?_, fun n hn => ?_, habsent, hstream⟩
  · rw [hk] at hi
    cases hi
  · exact hresident m (List.mem_of_getElem? hm)
  · refine (hstays n hn).imp_left ?_
    rintro ⟨m, hm, hmn⟩
    obtain ⟨j, hj⟩ := List.mem_iff_getElem?.mp hm
    exact ⟨j, m, by rw [hk]; exact nofun, hj, hmn⟩

theorem unload_spec (hP : ∀ n, P n → n ≠ name) :
    ⦃fun e => ⌜Fine { limits, stays := P, stream := s } e⌝⦄ unload name
    ⦃post⟨fun _ e => ⌜Fine { limits, stays := P, absent := fun n => n = name, stream := s } e⌝,
      fun _ _ => ⌜False⌝⟩⦄ := by
  mvcgen [unload]
  rename_i e hf _
  have hmodels : (e.models.filter fun m => m.name ≠ name).Sublist e.models := List.filter_sublist
  have hencoders : (e.encoders.filter fun h => h.name ≠ name).Sublist e.encoders := List.filter_sublist
  have hnames := (hmodels.map Model.name).append (hencoders.map Held.name)
  apply fine_of_mem
  · refine ⟨?_, ?_, fun m hm => hf.models m (hmodels.subset hm), hf.names.sublist hnames⟩
    · refine le_trans ?_ hf.vram
      rw [used_eq, used_eq]
      exact Nat.add_le_add ((hencoders.map Held.bytes).sum_le_sum fun _ _ => Nat.zero_le _)
        ((hmodels.map Model.cost).sum_le_sum fun _ _ => Nat.zero_le _)
    · exact le_trans ((hmodels.map Model.held).sum_le_sum fun _ _ => Nat.zero_le _) hf.host
  · exact hf.limits
  · rfl
  · intro m hm hpin
    obtain ⟨j, hj⟩ := List.mem_iff_getElem?.mp (hmodels.subset hm)
    exact hf.resident j m nofun hj hpin
  · intro n hn
    rcases hf.stays n hn with ⟨j, m, -, hj, hmn, hpin⟩ | ⟨h, hmem, hhn, hpin⟩
    · refine .inl ⟨m, List.mem_filter.mpr ⟨List.mem_of_getElem? hj, ?_⟩, hmn, hpin⟩
      rw [hmn]
      exact decide_eq_true (hP n hn)
    · refine .inr ⟨h, List.mem_filter.mpr ⟨hmem, ?_⟩, hhn, hpin⟩
      rw [hhn]
      exact decide_eq_true (hP n hn)
  · rintro n rfl hmem
    rcases List.mem_append.mp hmem with hmem | hmem
    · obtain ⟨m, hm, hmn⟩ := List.mem_map.mp hmem
      exact of_decide_eq_true (List.mem_filter.mp hm).2 hmn
    · obtain ⟨h, hh, hhn⟩ := List.mem_map.mp hmem
      exact of_decide_eq_true (List.mem_filter.mp hh).2 hhn
  · exact hf.stream

/-- An encoder takes what it is counted with before it is opened. -/
theorem openBytes_eq (d : EncoderDir) : d.openBytes = d.footprint := by
  unfold EncoderDir.openBytes EncoderDir.footprint
  cases hd : d.describe with
  | error err => rfl
  | ok u =>
    have heven : d.headDim / 2 * 2 = d.headDim := by
      unfold EncoderDir.describe at hd
      split at hd
      · cases hd
      · next hdim =>
        have hdim' : d.headDim = 32 ∨ d.headDim = 64 := by
          by_contra hnot
          exact hdim (.inl hnot)
        omega
    cases hc : EncoderDir.capacity with
    | error err => rfl
    | ok cap =>
      change Except.ok _ = Except.ok _
      rw [EncoderDir.ropeTables, heven]
      congr 2
      ring

theorem Fine.forget (hf : Fine { limits, stays := P, absent := fun n => n = name, stream := s } e) :
    Fine { limits, stays := P, stream := s } e :=
  ⟨hf.toSound, hf.limits, hf.loading, hf.resident, hf.stays, fun _ => False.elim, hf.stream⟩

/-- An encoder comes, where there is room for it. -/
theorem Fine.load {h : Held} (hf : Fine { limits, stays := P, absent := fun n => n = name, stream := s } e)
    (hname : h.name = name) (hfits : e.used + h.bytes ≤ e.vram) :
    Fine { limits, stays := P, stream := s } { e with encoders := e.encoders ++ [h] } := by
  refine ⟨⟨?_, hf.host, hf.models, ?_⟩, hf.limits, hf.loading, hf.resident, fun n hn => ?_, fun _ => False.elim,
    hf.stream⟩
  · rw [used_eq] at hfits ⊢
    simp only [List.map_append, List.sum_append, List.map_cons, List.map_nil, List.sum_cons,
      List.sum_nil]
    omega
  · change (_ ++ (e.encoders ++ [h]).map Held.name).Nodup
    rw [List.map_append, ← List.append_assoc]
    apply hf.names.append (List.nodup_singleton _)
    rw [List.disjoint_singleton, hname]
    exact hf.absent name rfl
  · refine (hf.stays n hn).imp_right ?_
    rintro ⟨h', hmem, hh'⟩
    exact ⟨h', List.mem_append_left _ hmem, hh'⟩

theorem loadEncoder_spec (enc : EncoderDir) (l : Load) :
    ⦃fun e => ⌜Fine { limits, stays := P, absent := fun n => n = name, stream := s } e⌝⦄
    loadEncoder w name enc l
    ⦃post⟨fun _ e => ⌜Fine { limits, stays := P, stream := s } e⌝,
      fun _ e => ⌜Fine { limits, stays := P, stream := s } e⌝⟩⦄ := by
  have hroom := @room_spec none { limits, stays := P, absent := fun n => n = name, stream := s }
    (fun _ => True) fun _ _ _ h => h
  mvcgen [loadEncoder, MonadExcept.ofExcept, hroom]
  · rename_i need hneed _ e h bytes hbytes _ _
    obtain ⟨hf, -, hfits⟩ := h
    rw [openBytes_eq, hneed] at hbytes
    obtain rfl := Except.ok.inj hbytes
    exact hf.load rfl hfits
  · rename_i h _ _ _
    exact h.1.forget
  · rename_i h _ _
    exact h.1.forget
  · exact Fine.forget
  · rename_i hf _ _
    exact hf.forget

theorem newModel_eq_ok {dir : String} {l : Load} (h : newModel w name dir l = .ok m) :
    m.name = name ∧ m.load = l ∧ m.place = .disk ∧ m.vision = none ∧ m.audio = none ∧
      ∃ template, Chat.open_ m.tok template l.budget = .ok m.chat := by
  unfold newModel at h
  cases htok : (w.files dir).tokenizer with
  | error err => simp [htok, bind, Except.bind] at h
  | ok tok =>
    cases hchat : Chat.open_ tok (w.files dir).template l.budget with
    | error err => simp [htok, hchat, bind, Except.bind] at h
    | ok chat =>
      cases hneed : (w.files dir).need l.settings with
      | error err => simp [htok, hchat, hneed, bind, Except.bind] at h
      | ok need =>
        simp only [htok, hchat, hneed, bind, Except.bind, Except.ok.injEq] at h
        subst h
        exact ⟨rfl, rfl, rfl, rfl, rfl, _, hchat⟩

/-- A model that is not in memory yet comes, to be loaded. -/
theorem Fine.push (hf : Fine { limits, stays := P, absent := fun n => n = name, stream := s } e)
    (hname : m.name = name) (hplace : m.place = .disk) (hvision : m.vision = none)
    (haudio : m.audio = none) (hchat : ∃ template, Chat.open_ m.tok template m.load.budget = .ok m.chat) :
    Fine { limits, stays := P, loading := some e.models.length, stream := s }
      { e with models := e.models ++ [m] } := by
  have hold : ∀ j m', some e.models.length ≠ some j → (e.models ++ [m])[j]? = some m' →
      e.models[j]? = some m' := by
    intro j m' hj hm'
    have hlt : j < e.models.length := by
      have hlt := (List.getElem?_eq_some_iff.mp hm').1
      rw [List.length_append, List.length_singleton] at hlt
      have hne : e.models.length ≠ j := fun h => hj (congrArg some h)
      omega
    rwa [List.getElem?_append_left hlt] at hm'
  refine ⟨⟨?_, ?_, ?_, ?_⟩, hf.limits, ?_, ?_, ?_, fun _ => False.elim, hf.stream⟩
  · have hcost : m.cost = 0 := by
      simp [Model.cost, Model.towers, Model.resident, hplace, hvision, haudio]
    have hvram := hf.vram
    rw [used_eq] at hvram ⊢
    simpa [hcost] using hvram
  · have hheld : m.held = 0 := by simp [Model.held, hplace]
    have hhost := hf.host
    unfold hosted at hhost ⊢
    simpa [hheld] using hhost
  · intro m' hm'
    rcases List.mem_append.mp hm' with hm' | hm'
    · exact hf.models m' hm'
    · obtain rfl := List.mem_singleton.mp hm'
      refine ⟨fun _ => ⟨hvision, haudio⟩, ⟨fun hv => absurd hvision hv, fun ha => absurd haudio ha⟩,
        fun d hd => ?_, fun d hd => ?_, hchat⟩
      · rw [hplace] at hd
        cases hd
      · rw [hplace] at hd
        cases hd
  · change ((e.models ++ [m]).map Model.name ++ _).Nodup
    have hnew := (@List.perm_append_comm _ (e.models.map Model.name) [m.name]).append_right
      (e.encoders.map Held.name)
    rw [List.map_append]
    apply hnew.nodup_iff.mpr
    refine List.nodup_cons.mpr ⟨?_, hf.names⟩
    rw [hname]
    exact hf.absent name rfl
  · intro i hi
    obtain rfl := Option.some.inj hi
    exact List.length_append
  · intro j m' hj hm' hpin
    exact hf.resident j m' (Option.some_ne_none j).symm (hold j m' hj hm') hpin
  · intro n hn
    refine (hf.stays n hn).imp_left ?_
    rintro ⟨j, m', -, hj, hm'⟩
    have hlt := (List.getElem?_eq_some_iff.mp hj).1
    refine ⟨j, m', fun h => hlt.ne' (Option.some.inj h), ?_, hm'⟩
    rw [List.getElem?_append_left hlt, hj]

/-- A model that could not be loaded goes. -/
theorem Fine.pop {i : ℕ} (hf : Fine { limits, stays := P, loading := some i, stream := s } e) :
    Fine { limits, stays := P, stream := s } { e with models := e.models.dropLast } := by
  have hlength := hf.loading i rfl
  have hsub : e.models.dropLast.Sublist e.models := List.dropLast_sublist _
  have hnames := (hsub.map Model.name).append (List.Sublist.refl (e.encoders.map Held.name))
  apply fine_of_mem
  · refine ⟨?_, ?_, fun m hm => hf.models m (hsub.subset hm), hf.names.sublist hnames⟩
    · refine le_trans ?_ hf.vram
      rw [used_eq, used_eq]
      exact Nat.add_le_add_left ((hsub.map Model.cost).sum_le_sum fun _ _ => Nat.zero_le _) _
    · exact le_trans ((hsub.map Model.held).sum_le_sum fun _ _ => Nat.zero_le _) hf.host
  · exact hf.limits
  · rfl
  · intro m hm hpin
    obtain ⟨j, hj⟩ := List.mem_iff_getElem?.mp hm
    have hlt := (List.getElem?_eq_some_iff.mp hj).1
    rw [List.length_dropLast] at hlt
    refine hf.resident j m (fun h => ?_) ?_ hpin
    · have := Option.some.inj h
      omega
    · rw [List.getElem?_dropLast, if_pos hlt] at hj
      exact hj
  · intro n hn
    refine (hf.stays n hn).imp_left ?_
    rintro ⟨j, m, hne, hj, hm⟩
    refine ⟨m, List.mem_iff_getElem?.mpr ⟨j, ?_⟩, hm⟩
    have hlt := (List.getElem?_eq_some_iff.mp hj).1
    have hij : i ≠ j := fun h => hne (congrArg some h)
    rw [List.getElem?_dropLast, if_pos (by omega), hj]
  · exact fun _ => False.elim
  · exact hf.stream

/-- The model that was being loaded is in VRAM. -/
theorem Fine.loaded {i : ℕ} (hf : Fine { limits, stays := P, loading := some i, stream := s } e)
    (h : ∃ m, e.models[i]? = some m ∧ m.resident = true) : Fine { limits, stays := P, stream := s } e := by
  apply fine_of_mem hf.toSound
  · exact hf.limits
  · rfl
  · intro m' hm' hpin
    obtain ⟨j, hj⟩ := List.mem_iff_getElem?.mp hm'
    rcases eq_or_ne i j with rfl | hne
    · obtain ⟨m, hm, hr⟩ := h
      obtain rfl := Option.some.inj (hm.symm.trans hj)
      exact hr
    · exact hf.resident j m' (fun h => hne (Option.some.inj h)) hj hpin
  · intro n hn
    refine (hf.stays n hn).imp_left ?_
    rintro ⟨j, m, -, hj, hm⟩
    exact ⟨m, List.mem_of_getElem? hj, hm⟩
  · exact fun _ => False.elim
  · exact hf.stream

/-! ### Operations on models -/

theorem load_spec (hP : ∀ n, P n → n ≠ name) (dir : String) (l : Load) :
    ⦃fun e => ⌜Fine { limits, stays := P, stream := s } e⌝⦄ load w name dir l
    ⦃post⟨fun _ e => ⌜Fine { limits, stays := P, stream := s } e⌝,
      fun _ e => ⌜Fine { limits, stays := P, stream := s } e⌝⟩⦄ := by
  have hunload := @unload_spec limits P s name hP
  have hexpire := @expire_spec { limits, stays := P, absent := fun n => n = name, stream := s } w
  have hencoder := @loadEncoder_spec w limits P s name
  have hresident := fun i => @resident_spec { limits, stays := P, loading := some i, stream := s } w i
  mvcgen [load, hunload, hexpire, hencoder, hresident, MonadExcept.ofExcept]
  · rename_i e hf _ _ _ m hm _ last
    obtain ⟨hname, hload, hplace, hvision, haudio, hchat⟩ := newModel_eq_ok hm
    have hpush := hf.push hname hplace hvision haudio (hload ▸ hchat)
    have hlast : (e.models ++ [m]).length - 1 = e.models.length := by
      rw [List.length_append]
      rfl
    rw [← hlast] at hpush
    exact hpush
  · exact Fine.loaded
  · rename_i hf _
    exact hf.pop
  · rename_i hf _ _ _ _ _
    exact hf.forget
  · rename_i hf _ _
    exact hf.forget
  · exact Fine.forget

end Chatlink.Tachyon.Engine
