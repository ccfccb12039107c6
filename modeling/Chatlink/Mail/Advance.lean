import Chatlink.Mail.Cursor

/-!
# Two folders in one row

The tasks of INBOX and of the Sent folder write the same value: each reads all the UIDs of the
user row, changes its own and writes all of them back. Whatever was committed between its read
and its write is undone, so the row goes forward exactly in the runs where no task writes over
something that it has not read.
-/
namespace Chatlink.Mail

open Transition

variable {mailbox : String} {s s' : Buzon} {a : AccionBuzon}

/-! ## Rows that go forward -/

/-- No folder goes back. -/
def Uids.Avanza (u u' : Uids) : Prop :=
  ∀ carpeta v, u carpeta = some v → ∃ w, u' carpeta = some w ∧ v ≤ w

namespace Uids.Avanza

variable {u u' u'' : Uids}

theorem refl (u : Uids) : u.Avanza u := fun _ v hv => ⟨v, hv, le_rfl⟩

theorem trans (h : u.Avanza u') (h' : u'.Avanza u'') : u.Avanza u'' := by
  intro carpeta v hv
  obtain ⟨w, hw, hle⟩ := h carpeta v hv
  obtain ⟨x, hx, hle'⟩ := h' carpeta w hw
  exact ⟨x, hx, hle.trans hle'⟩

end Uids.Avanza

/-- What a task has read is up to date for what it is going to write: the mail is already counted
and it writes nothing, or it has read the UID of every other folder and its own folder has not gone
past the mail in the meantime. -/
def AlDia (leidas fila : Uids) (carpeta : Carpeta) (uid : ℕ) : Prop :=
  (∃ v, leidas carpeta = some v ∧ uid ≤ v) ∨
    ∀ k v, fila k = some v →
      if k = carpeta then v ≤ max ((leidas carpeta).getD 0) uid
      else ∃ w, leidas k = some w ∧ v ≤ w

/-- One write of the row. -/
theorem avanza_anotaUid_iff (leidas fila : Uids) (carpeta : Carpeta) (uid : ℕ) :
    fila.Avanza (anotaUid leidas fila carpeta uid) ↔ AlDia leidas fila carpeta uid := by
  by_cases hno : ∃ v, leidas carpeta = some v ∧ uid ≤ v
  · have hsame : anotaUid leidas fila carpeta uid = fila := by
      obtain ⟨v, hv, hle⟩ := hno
      simp [anotaUid, hv, hle]
    rw [hsame]
    exact iff_of_true (.refl fila) (Or.inl hno)
  · have hwrite : anotaUid leidas fila carpeta uid =
        leidas.con carpeta (max ((leidas carpeta).getD 0) uid) := by
      refine if_neg ?_
      simpa [Option.any_eq_true] using hno
    rw [hwrite, AlDia, or_iff_right hno]
    refine forall_congr' fun k => forall_congr' fun v => imp_congr_right fun _ => ?_
    by_cases hk : k = carpeta
    · simp [Uids.con, hk]
    · simp [Uids.con, hk]

/-- The step writes nothing back that it has not read. -/
def sinPisar (s : Buzon) (a : AccionBuzon) : Prop :=
  ∀ i t uids, a = .anota i → s.tareas[i]? = some t → t.fase = .leida uids →
    AlDia uids s.imapUids t.carpeta t.uid

/-- Only `anota` writes the row, so a step takes no folder back exactly when it is up to date. -/
theorem avanza_paso_iff (h : Cambio mailbox s a s') :
    s.imapUids.Avanza s'.imapUids ↔ sinPisar s a := by
  cases h with
  | @anota i t uids ht hf =>
    rw [avanza_anotaUid_iff]
    constructor
    · rintro hd j t' uids' hj ht' hf'
      obtain rfl := AccionBuzon.anota.inj hj
      obtain rfl : t = t' := Option.some.inj (ht.symm.trans ht')
      obtain rfl := Fase.leida.inj (hf.symm.trans hf')
      exact hd
    · exact fun hd => hd i t uids rfl ht hf
  | _ => exact iff_of_true (.refl _) fun _ _ _ ha => nomatch ha

/-- What the tasks have read is not ahead of the row. -/
def LeidasAntes (s : Buzon) : Prop :=
  ∀ t ∈ s.tareas, ∀ uids, t.fase = .leida uids → uids.Avanza s.imapUids

theorem leidasAntes_paso (h : Cambio mailbox s a s') (hs : sinPisar s a) (hi : LeidasAntes s) :
    LeidasAntes s' := by
  have hrow : s.imapUids.Avanza s'.imapUids := (avanza_paso_iff h).mpr hs
  have hone (ht : ∀ t ∈ s'.tareas, t ∈ s.tareas ∨ ∀ uids, t.fase = .leida uids → uids.Avanza s.imapUids) :
      LeidasAntes s' := by
    intro t hmem uids hf
    rcases ht t hmem with hold | hnew
    · exact (hi t hold uids hf).trans hrow
    · exact (hnew uids hf).trans hrow
  have hset {i : ℕ} {t : Tarea} (f : Fase)
      (hf : ∀ uids, f = .leida uids → uids.Avanza s.imapUids) :
      ∀ x ∈ s.tareas.set i { t with fase := f },
        x ∈ s.tareas ∨ ∀ uids, x.fase = .leida uids → uids.Avanza s.imapUids := by
    intro x hx
    rcases List.mem_or_eq_of_mem_set hx with hx | rfl
    · exact Or.inl hx
    · exact Or.inr hf
  apply hone
  cases h with
  | cae => exact fun t ht => nomatch ht
  | empieza ho hp hl hm hk =>
    intro t ht
    rcases List.mem_append.mp ht with ht | ht
    · exact Or.inl ht
    · obtain rfl := List.mem_singleton.mp ht
      exact Or.inr fun _ hf => nomatch hf
  | leeFila ht hf => exact hset _ fun uids hu => Fase.leida.inj hu ▸ .refl _
  | anota ht hf => exact hset _ fun _ hu => nomatch hu
  | admite ht hf hm => exact hset _ fun _ hu => nomatch hu
  | descarta ht hf hm => exact fun t ht => Or.inl (List.mem_of_mem_eraseIdx ht)
  | almacena ht hf => exact fun t ht => Or.inl (List.mem_of_mem_eraseIdx ht)
  | abandona ht => exact fun t ht => Or.inl (List.mem_of_mem_eraseIdx ht)
  | _ => exact fun t ht => Or.inl ht

/-! ## Whole runs -/

/-- The cursors of a run hold: none goes back, and what a task commits stays. -/
structure CursoresFirmes (mailbox : String) (as : List AccionBuzon) : Prop where
  avanza : ∀ xs ys zs u v, as = xs ++ ys ++ zs → run (pasoBuzon mailbox) {} xs = some u →
    run (pasoBuzon mailbox) u ys = some v → u.imapUids.Avanza v.imapUids
  queda : ∀ xs i ys zs u t uids v, as = xs ++ .anota i :: ys ++ zs →
    run (pasoBuzon mailbox) {} xs = some u → u.tareas[i]? = some t → t.fase = .leida uids →
    run (pasoBuzon mailbox) u (.anota i :: ys) = some v → ∃ w, v.imapUids t.carpeta = some w ∧ t.uid ≤ w

/-- Every step of a run is up to date when it writes. -/
def NadaPisado (mailbox : String) (as : List AccionBuzon) : Prop :=
  ∀ xs a ys u, as = xs ++ a :: ys → run (pasoBuzon mailbox) {} xs = some u → sinPisar u a

theorem NadaPisado.leidasAntes {as : List AccionBuzon} (h : NadaPisado mailbox as)
    (hrun : run (pasoBuzon mailbox) {} as = some s) : LeidasAntes s := by
  induction as using List.reverseRecOn generalizing s with
  | nil =>
    obtain rfl := Option.some.inj hrun
    exact fun t ht => nomatch ht
  | append_singleton as a ih =>
    obtain ⟨u, hu, hlast⟩ := run_append_eq_some.mp hrun
    obtain ⟨u', hstep, hend⟩ := run_cons_eq_some.mp hlast
    obtain rfl := Option.some.inj hend
    have hprefix : NadaPisado mailbox as := fun xs b ys w hw =>
      h xs b (ys ++ [a]) w (by simp [hw])
    exact leidasAntes_paso (pasoBuzon_cases hstep) (h as a [] u rfl hu) (ih hprefix hu)

theorem NadaPisado.avanza {as xs ys zs : List AccionBuzon} {u v : Buzon} (h : NadaPisado mailbox as)
    (has : as = xs ++ ys ++ zs) (hu : run (pasoBuzon mailbox) {} xs = some u)
    (hv : run (pasoBuzon mailbox) u ys = some v) : u.imapUids.Avanza v.imapUids := by
  induction ys generalizing xs u with
  | nil =>
    obtain rfl := Option.some.inj hv
    exact .refl _
  | cons a ys ih =>
    obtain ⟨w, hstep, hrest⟩ := run_cons_eq_some.mp hv
    have hsin : sinPisar u a := h xs a (ys ++ zs) u (by simp [has]) hu
    have hw : run (pasoBuzon mailbox) {} (xs ++ [a]) = some w :=
      run_append_eq_some.mpr ⟨u, hu, run_cons_eq_some.mpr ⟨w, hstep, rfl⟩⟩
    have hnext : w.imapUids.Avanza v.imapUids := @ih (xs ++ [a]) _ (by simp [has]) hw hrest
    exact ((avanza_paso_iff (pasoBuzon_cases hstep)).mpr hsin).trans hnext

/-- The row holds the UID of a task that has just written. -/
theorem uid_anotaUid {leidas fila : Uids} {carpeta : Carpeta} {uid : ℕ} (h : leidas.Avanza fila) :
    ∃ w, anotaUid leidas fila carpeta uid carpeta = some w ∧ uid ≤ w := by
  unfold anotaUid
  split
  · next hany =>
    obtain ⟨v, hv, hle⟩ := (Option.any_eq_true _ _).mp hany
    obtain ⟨w, hw, hvw⟩ := h carpeta v hv
    exact ⟨w, hw, (of_decide_eq_true hle).trans hvw⟩
  · exact ⟨_, if_pos rfl, le_max_right _ _⟩

/-- In a run of the mailbox no folder's cursor goes back and no committed one is lost exactly when
every task that writes has read what the row holds for the other folders, and its own folder is not
past its mail. -/
theorem cursores_firmes_iff (mailbox : String) (as : List AccionBuzon) :
    CursoresFirmes mailbox as ↔ NadaPisado mailbox as := by
  constructor
  · rintro ⟨h, -⟩ xs a ys u has hu i t uids rfl ht hf
    have hstep : pasoBuzon mailbox u (.anota i) = some
        { u with
          imapUids := anotaUid uids u.imapUids t.carpeta t.uid
          tareas := u.tareas.set i { t with fase := .anotada } } := by
      simp [pasoBuzon, pasoTarea, ht, hf]
    have hone := h xs [.anota i] ys u _ (by simp [has]) hu (run_cons_eq_some.mpr ⟨_, hstep, rfl⟩)
    exact (avanza_anotaUid_iff ..).mp hone
  · intro h
    refine ⟨fun xs ys zs u v has hu hv => h.avanza has hu hv, ?_⟩
    intro xs i ys zs u t uids v has hu ht hf hv
    have hprefix : NadaPisado mailbox xs := fun xs' b ys' w hw =>
      h xs' b (ys' ++ .anota i :: ys ++ zs) w (by simp [has, hw])
    have hread : uids.Avanza u.imapUids :=
      hprefix.leidasAntes hu t (List.mem_of_getElem? ht) uids hf
    obtain ⟨u', hstep, hrest⟩ := run_cons_eq_some.mp hv
    have hw : run (pasoBuzon mailbox) {} (xs ++ [.anota i]) = some u' :=
      run_append_eq_some.mpr ⟨u, hu, run_cons_eq_some.mpr ⟨u', hstep, rfl⟩⟩
    have hrow : u'.imapUids = anotaUid uids u.imapUids t.carpeta t.uid := by
      have heq : some _ = some u' := (by simpa [pasoBuzon, pasoTarea, ht, hf] using hstep)
      exact congrArg Buzon.imapUids (Option.some.inj heq).symm
    obtain ⟨w, hw', hle⟩ := @uid_anotaUid _ _ t.carpeta t.uid hread
    obtain ⟨x, hx, hwx⟩ := @NadaPisado.avanza _ _ (xs ++ [.anota i]) _ zs _ _ h (by simp [has]) hw hrest
      t.carpeta w (hrow ▸ hw')
    exact ⟨x, hx, hle.trans hwx⟩

/-- A mail in each folder: both tasks read the row before either writes it. -/
def runTwoFolders : List AccionBuzon :=
  [.llega "INBOX" pedido, .llega "Sent" pedido, .arranca, .descubre 0 "Sent",
    .sondea 0 .received false [1], .recoge 0 true, .termina 0,
    .sondea 0 .sent false [1], .recoge 0 true, .termina 0,
    .leeFila 0, .leeFila 1, .anota 0, .anota 1]

/-- The cursor of INBOX is committed and then gone. -/
theorem sent_task_takes_inbox_back :
    ¬ ∀ as, CursoresFirmes "comercial@example.com" as := by
  intro h
  have hbefore : ((run (pasoBuzon "comercial@example.com") {} (runTwoFolders.take 13)).map fun s =>
      s.imapUids "INBOX") = some (some 1) := by
    decide
  have hafter : ((run (pasoBuzon "comercial@example.com") {} runTwoFolders).map fun s =>
      s.imapUids "INBOX") = some none := by
    decide
  obtain ⟨u, hu, hinbox⟩ := Option.map_eq_some_iff.mp hbefore
  obtain ⟨v, hv, hgone⟩ := Option.map_eq_some_iff.mp hafter
  obtain ⟨u', hu', hlast⟩ := (@run_append_eq_some _ _ _ _ (runTwoFolders.take 13)
    [.anota 1] _).mp hv
  obtain rfl : u = u' := Option.some.inj (hu.symm.trans hu')
  obtain ⟨w, hw, -⟩ := (h runTwoFolders).avanza (runTwoFolders.take 13) [.anota 1] [] u v rfl hu hlast
    "INBOX" 1 hinbox
  rw [hgone] at hw
  cases hw

end Chatlink.Mail
