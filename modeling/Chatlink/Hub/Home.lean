import Chatlink.Hub.Workers

/-!
# Where the token goes

The token is meant for the Hub. A fetch that starts at the Hub's host sends it to every URL with that
host that a redirect leads to, and a URL with the Hub's host that a download has ended at gets it on
the next attempt. It stays home as long as these URLs keep the Hub's scheme and port.
-/
namespace Chatlink.Hub

open Files Transition

variable {c : Config} {P : Url → Prop} {s s' s₀ : System} {p : Proc} {k : ℕ}

/-- The token, and any other authorization, was written only where `P` lets it go. -/
def Confined (P : Url → Prop) (log : List Request) : Prop :=
  ∀ q ∈ log, ∀ h ∈ q.headers, isAuthorization h.1 = true → P q.dest

/-- The URL meets `P` if it has the Hub's host. -/
def Config.Home (c : Config) (P : Url → Prop) (u : Url) : Prop := u.host = c.first.host → P u

/-- A redirect of a fetch that started at the Hub's host leads to a URL of that host only where `P`
lets the token go, and a download ends at one only there. -/
def Benign (c : Config) (P : Url → Prop) (s : System) : Input → Prop
  | .worker k (.redirect _ location _) => ∀ p r f, s.proc = some p → (p.workers k).phase = .asked r →
      r.fetch.redirect location = some f → r.fetch.origin = c.first.host → c.Home P f.url
  | .worker k .finish => ∀ p r status at_ chunk, s.proc = some p → (p.workers k).phase = .body r status at_ chunk →
      status ∉ [401, 403, 410] → c.Home P r.fetch.url
  | _ => True

/-- The URL is the Hub's, by scheme, host and port. -/
def Config.Same (c : Config) (u : Url) : Prop := u.SameOrigin c.first

/-- The URL has the Hub's host. -/
def Config.Host (c : Config) (u : Url) : Prop := u.host = c.first.host

/-! ## Fetches that keep the token -/

theorem serves_sameOrigin {conn : Connection} {u : Url} (h : conn.serves u = true) : conn.url.SameOrigin u := by
  rw [Connection.serves, Bool.and_eq_true] at h
  exact of_decide_eq_true h.2

/-- A request goes out on a connection to its URL's scheme, host and port. -/
theorem connect_sameOrigin (conn : Option Connection) (u : Url) : (connect conn u).url.SameOrigin u := by
  unfold connect
  split
  · split_ifs with h
    · exact serves_sameOrigin h
    · exact ⟨rfl, rfl, rfl⟩
  · exact ⟨rfl, rfl, rfl⟩

theorem Url.SameOrigin.trans {u v w : Url} (h : u.SameOrigin v) (h' : v.SameOrigin w) : u.SameOrigin w :=
  ⟨h.1.trans h'.1, h.2.1.trans h'.2.1, h.2.2.trans h'.2.2⟩

/-- Where the token may go is a matter of scheme, host and port, and the Hub is such a place. -/
structure Config.Place (c : Config) (P : Url → Prop) : Prop where
  hub : P c.first
  same : ∀ u v, u.SameOrigin v → P v → P u

theorem place_same : c.Place c.Same := ⟨⟨rfl, rfl, rfl⟩, fun _ _ h h' => h.trans h'⟩

theorem place_host : c.Place c.Host := ⟨rfl, fun _ _ h h' => h.2.1.trans h'⟩

/-- A fetch either is where the token may go whenever it would send it, or has no token to send. -/
def Careful (c : Config) (P : Url → Prop) (f : Fetch) : Prop :=
  (f.origin = c.first.host → c.Home P f.url) ∧
    (f.origin ≠ c.first.host → ∀ h ∈ f.headers, isAuthorization h.1 = false)

/-- What a careful fetch sends. -/
theorem Careful.request (hP : c.Place P) {f : Fetch} (hf : Careful c P f) (conn : Option Connection) :
    ∀ h ∈ (f.request (connect conn f.url)).headers, isAuthorization h.1 = true →
      P (f.request (connect conn f.url)).dest := by
  intro h hmem hauth
  obtain ⟨hheader, hsent⟩ := List.mem_filter.mp hmem
  rw [hauth, Bool.not_true, Bool.or_false, decide_eq_true_eq] at hsent
  by_cases horigin : f.origin = c.first.host
  · exact hP.same _ _ (connect_sameOrigin conn f.url) (hf.1 horigin (hsent.trans horigin))
  · have hnone := hf.2 horigin h hheader
    rw [hauth] at hnone
    cases hnone

/-- The fetch a worker is at. -/
def Phase.fetch? : Phase → Option Fetch
  | .asking r => some r.fetch
  | .asked r => some r.fetch
  | .body r _ _ _ => some r.fetch
  | _ => none

structure Discreet (c : Config) (P : Url → Prop) (s : System) : Prop where
  log : Confined P s.log
  url : ∀ p, s.proc = some p → ∀ u, p.url = some u → c.Home P u
  fetches : ∀ p, s.proc = some p → ∀ k f, (p.workers k).phase.fetch? = some f → Careful c P f

theorem isAuthorization_range : isAuthorization "Range" = false := by decide

theorem careful_begin {u : Url} (hu : c.Home P u) (a b : ℕ) : Careful c P (.begin u (c.headers u a b)) := by
  refine ⟨fun _ => hu, fun horigin h hmem => ?_⟩
  change u.host ≠ c.first.host at horigin
  have hnone : c.auth.filter (fun _ => decide (u.host = c.first.host)) = none := by
    cases c.auth with
    | none => rfl
    | some t => simp [horigin]
  rw [Fetch.begin, Config.headers, hnone] at hmem
  obtain rfl := List.mem_singleton.mp hmem
  exact isAuthorization_range

theorem redirect_eq_some {f f' : Fetch} {location : Option String} (h : f.redirect location = some f') :
    f'.origin = f.origin ∧ f'.headers = f.headers ∧ ∃ l, location = some l ∧ f.url.join l.toList = some f'.url := by
  obtain ⟨l, hl, h⟩ := Option.bind_eq_some_iff.mp h
  obtain ⟨url, hurl, h⟩ := Option.bind_eq_some_iff.mp h
  split_ifs at h
  obtain rfl := Option.some.inj h
  exact ⟨rfl, rfl, l, hl, hurl⟩

theorem Discreet.set (hs : Discreet c P s) (hproc : s.proc = some p) {q : Proc} {w : Worker} {log : List Request}
    {part target : Option (List Cell)} {state : Option (List UInt8)}
    (hworkers : q.workers = Function.update p.workers k w) (hlog : Confined P log)
    (hurl : ∀ u, q.url = some u → c.Home P u) (hfetch : ∀ f, w.phase.fetch? = some f → Careful c P f) :
    Discreet c P { part, state, target, proc := some q, log } := by
  refine ⟨hlog, fun p' hp' => ?_, fun p' hp' j f hf => ?_⟩
  · obtain rfl := Option.some.inj hp'
    exact hurl
  · obtain rfl := Option.some.inj hp'
    rw [hworkers] at hf
    by_cases hj : j = k
    · rw [hj, Function.update_self] at hf
      exact hfetch f hf
    · rw [Function.update_of_ne hj] at hf
      exact hs.fetches p hproc j f hf

theorem Discreet.works (hP : c.Place P) (hs : Discreet c P s) (hproc : s.proc = some p) {act : Act}
    (hbenign : Benign c P s (.worker k act)) (h : Works c s p k act s') : Discreet c P s' := by
  have hurl := hs.url p hproc
  have hfetches := hs.fetches p hproc k
  cases h with
  | claim h => exact hs.set hproc rfl hs.log hurl nofun
  | quit first h hover => exact hs.set hproc rfl hs.log hurl nofun
  | scan first h hfirst => exact hs.set hproc rfl hs.log hurl nofun
  | exhausted at_ stop h hnone => exact hs.set hproc rfl hs.log hurl nofun
  | take at_ stop frm past h hsome => exact hs.set hproc rfl hs.log hurl nofun
  | through t h hnone => exact hs.set hproc rfl hs.log hurl nofun
  | ask t a b h hsome =>
    refine hs.set hproc rfl hs.log hurl fun f hf => ?_
    obtain rfl := Option.some.inj hf
    refine careful_begin ?_ a b
    cases hu : p.url with
    | none => exact fun _ => hP.hub
    | some u => exact hurl u hu
  | giveUp t h hlast => exact hs.set hproc rfl hs.log hurl nofun
  | retry t h => exact hs.set hproc rfl hs.log hurl nofun
  | sent r h =>
    have hcareful := hfetches r.fetch (by rw [h]; rfl)
    refine hs.set hproc rfl (fun q hq => ?_) hurl fun f hf => ?_
    · obtain hold | hnew := List.mem_append.mp hq
      · exact hs.log q hold
      · obtain rfl := List.mem_singleton.mp hnew
        exact hcareful.request hP _
    · obtain rfl := Option.some.inj hf
      exact hcareful
  | redirected r status location closing fetch h hfetch =>
    have hcareful := hfetches r.fetch (by rw [h]; rfl)
    obtain ⟨horigin, hheaders, -⟩ := redirect_eq_some hfetch
    refine hs.set hproc rfl hs.log hurl fun f hf => ?_
    obtain rfl := Option.some.inj hf
    refine ⟨fun ho => ?_, fun ho => ?_⟩
    · exact hbenign p r _ hproc h hfetch (horigin.symm.trans ho)
    · exact hheaders.symm ▸ hcareful.2 (horigin ▸ ho)
  | answered r status closing h =>
    exact hs.set hproc rfl hs.log hurl fun f hf => hfetches f (by rw [h]; exact hf)
  | failed act r conn h => exact hs.set hproc rfl hs.log hurl nofun
  | wrote r status at_ chunk bytes part h hpart hpending =>
    exact hs.set hproc rfl hs.log hurl fun f hf => hfetches f (by rw [h]; exact hf)
  | tore r status at_ chunk n bytes part h hpart hpending => exact hs.set hproc rfl hs.log hurl nofun
  | marked r status at_ chunk state h hstate hchunk hwhole =>
    exact hs.set hproc rfl hs.log hurl fun f hf => hfetches f (by rw [h]; exact hf)
  | skipped r status at_ chunk h hchunk hwhole =>
    exact hs.set hproc rfl hs.log hurl fun f hf => hfetches f (by rw [h]; exact hf)
  | finished r status at_ chunk url phase h hpending hlast hphase =>
    refine hs.set hproc rfl hs.log (fun u hu => ?_) ?_
    · change url = some u at hu
      rw [hlast] at hu
      split_ifs at hu with hexpired
      obtain rfl := Option.some.inj hu
      exact hbenign p r status at_ chunk hproc h hexpired
    · obtain rfl | ⟨rfl, -⟩ := hphase
      all_goals nofun

/-! ## Every run -/

theorem Discreet.keep (hs : Discreet c P s) (hproc : s.proc = some p) {q : Proc} (hworkers : q.workers = p.workers)
    (hurl : q.url = p.url) {part target : Option (List Cell)} {state : Option (List UInt8)} :
    Discreet c P { part, state, target, proc := some q, log := s.log } := by
  refine ⟨hs.log, fun q' hq' => ?_, fun q' hq' => ?_⟩
  · obtain rfl := Option.some.inj hq'
    rw [hurl]
    exact hs.url p hproc
  · obtain rfl := Option.some.inj hq'
    rw [hworkers]
    exact hs.fetches p hproc

theorem Discreet.step (hP : c.Place P) (hs : Discreet c P s) {inp : Input} (hbenign : Benign c P s inp)
    (h : step c s inp = some s') : Discreet c P s' := by
  cases moves_of_step h with
  | opened o part state hproc hpart hstate htarget =>
    refine ⟨hs.log, fun p hp => ?_, fun p hp => ?_⟩
    all_goals exact absurd (hproc.symm.trans hp) nofun
  | started hproc htarget =>
    refine ⟨hs.log, fun p hp => ?_, fun p hp => ?_⟩
    all_goals
      obtain rfl := Option.some.inj hp
      nofun
  | worked p k act s' hproc hk h => exact hs.works hP hproc hbenign h
  | killed p hproc =>
    refine ⟨hs.log, fun q hq => ?_, fun q hq => ?_⟩
    all_goals cases hq
  | hashedAll p i bytes read hproc h hi => exact hs.keep hproc (by rfl) (by rfl)
  | hashed p i bytes part read hproc hpart h hi hdone hfile => exact hs.keep hproc (by rfl) (by rfl)
  | unhashed p read hash hproc hhash => exact hs.keep hproc (by rfl) (by rfl)
  | flushed p synced flush hproc => exact hs.keep hproc (by rfl) (by rfl)
  | joined p hproc hmain hhash hended => exact hs.keep hproc (by rfl) (by rfl)
  | mismatched p done state hproc hmain hstate => exact hs.keep hproc (by rfl) (by rfl)
  | synced p hproc hmain => exact hs.keep hproc (by rfl) (by rfl)
  | renamed p hproc hmain => exact hs.keep hproc (by rfl) (by rfl)
  | unsettled p hproc hmain => exact hs.keep hproc (by rfl) (by rfl)
  | removed p hproc hmain => exact hs.keep hproc (by rfl) (by rfl)

theorem confined_of_run (hP : c.Place P) (hproc : s₀.proc = none) (hlog : s₀.log = [])
    (h : Reachable (step c) (Benign c P) s₀ s) : Confined P s.log := by
  have hstart : Discreet c P s₀ := by
    refine ⟨?_, fun p hp => ?_, fun p hp => ?_⟩
    · rw [hlog]
      nofun
    all_goals exact absurd (hproc.symm.trans hp) nofun
  exact (h.invariant hstart fun _ _ _ hbenign hstep hs => hs.step hP hbenign hstep).log

/-- To have the Hub's host is what the code sees to. -/
theorem benign_host (s : System) (inp : Input) : Benign c c.Host s inp := by
  unfold Benign
  split
  · exact fun _ _ _ _ _ _ _ h => h
  · exact fun _ _ _ _ _ _ _ _ h => h
  · trivial

/-- The token is written to the Hub's host only, and to its scheme and port as well as long as no
redirect that it goes along with, and no download, leads to another scheme or port of that host. -/
theorem token_stays_home (hproc : s₀.proc = none) (hlog : s₀.log = []) :
    (Reachable (step c) Libre s₀ s → Confined c.Host s.log) ∧
      (Reachable (step c) (Benign c c.Same) s₀ s → Confined c.Same s.log) :=
  ⟨fun h => confined_of_run place_host hproc hlog (h.mono fun s a _ => benign_host s a),
    confined_of_run place_same hproc hlog⟩

/-- A worker that asks the Hub for it and is sent somewhere else. -/
def ledTo (location : String) : List Input :=
  asking ++ [.worker 0 (.redirect 302 (some location) true), .worker 0 (.send true)]

theorem ledTo_cdn_runs : (run (step gated) ⟨none, none, none, none, []⟩ (ledTo "https://cdn/file")).isSome := by
  decide

theorem ledTo_clear_runs : (run (step gated) ⟨none, none, none, none, []⟩ (ledTo "http://hub/file")).isSome := by
  decide

/-- A redirect to a CDN takes the token along nowhere. -/
theorem benign_cdn (s : System) (inp : Input) (h : inp ∈ ledTo "https://cdn/file") : Benign gated gated.Same s inp := by
  have hcdn : Url.parse "https://cdn/file".toList = some ⟨true, "cdn", 443, "/file"⟩ := by decide
  fin_cases h
  case «8» =>
    intro p r f hproc hphase hredirect horigin hhost
    obtain ⟨-, -, l, hl, hjoin⟩ := redirect_eq_some hredirect
    obtain rfl := Option.some.inj hl
    have hurl : ⟨true, "cdn", 443, "/file"⟩ = f.url := Option.some.inj (hcdn.symm.trans hjoin)
    rw [← hurl] at hhost
    exact absurd hhost (by decide)
  all_goals trivial

/-- The token is written to the Hub and not to a CDN. -/
theorem token_not_at_cdn : ∃ s, Reachable (step gated) (Benign gated gated.Same) ⟨none, none, none, none, []⟩ s ∧
    s.log.length = 2 ∧ Confined gated.Same s.log := by
  have hrun : Reachable (step gated) (Benign gated gated.Same) ⟨none, none, none, none, []⟩
      ((run (step gated) ⟨none, none, none, none, []⟩ (ledTo "https://cdn/file")).get ledTo_cdn_runs) :=
    Reachable.refl.run (fun inp hinp u => benign_cdn u inp hinp) (Option.some_get _).symm
  exact ⟨_, hrun, by decide, (token_stays_home rfl rfl).2 hrun⟩

/-- The token is written in clear text if the Hub redirects to its own host without TLS. -/
theorem token_in_clear : ∃ s, Reachable (step gated) Libre ⟨none, none, none, none, []⟩ s ∧
    ¬Confined gated.Same s.log := by
  refine ⟨_, reachable_run _ ledTo_clear_runs, fun h => ?_⟩
  have hclear := h ⟨⟨false, "hub", 80, "/file"⟩, "/file", [("Range", "bytes=0-2"), ("Authorization", "Bearer token")]⟩
    (by decide) ("Authorization", "Bearer token") (by decide) (by decide)
  exact absurd hclear.1 (by decide)

end Chatlink.Hub
