import Chatlink.Serve.LoopRuns
import Chatlink.Serve.Room

/-!
# The request and cancel protocol

Whatever the clients and the daemon do, in whatever order: a request gets at most one last
message, with its number and from its own client's request area; requests are answered in the
order in which they were read; a cancel reaches no later request. And none is forgotten: as
long as the daemon is not shut down, it gets to every request of a client that stays, however
the steps are interleaved, with a bound on the texts that are streamed meanwhile and on what
the clients do.
-/
namespace Chatlink.Serve

namespace Served

variable {s s' : Served} {e : Event} {k : ℕ} {f : Conn → Conn}

/-! ### The work ahead -/

/-- Doorbells that wait in the sockets. -/
def waiting (s : Served) : ℕ := ∑ k ∈ Finset.range s.joined, (s.conns k).unread.length

/-- Steps until the next `poll`, beside reading doorbells. -/
def rank (s : Served) : ℕ :=
  match s.phase with
  | .poll | .stopped => 0
  | .drains => 2 * s.queue.length + 1
  | .streams _ _ => 2 * s.queue.length + 2
  | .hears _ _ => 2 * s.queue.length + 3
  | .rings todo => 2 * s.queue.length + 2 + 4 * todo.length
  | .reads _ _ _ todo => 2 * s.queue.length + 5 + 4 * todo.length

def work (s : Served) : ℕ := s.waiting + s.rank

/-- The clients, their slots and their doorbells are as they were. -/
structure Still (s s' : Served) : Prop where
  slots : s'.slots = s.slots
  joined : s'.joined = s.joined
  rung : ∀ k, (s'.conns k).rung = (s.conns k).rung
  got : ∀ k, (s'.conns k).got = (s.conns k).got
  asked : ∀ k, (s'.conns k).asked = (s.conns k).asked
  open_ : ∀ k, (s'.conns k).open_ = (s.conns k).open_

theorem still_set (hrung : (f (s.conns k)).rung = (s.conns k).rung)
    (hgot : (f (s.conns k)).got = (s.conns k).got)
    (hasked : (f (s.conns k)).asked = (s.conns k).asked)
    (hopen : (f (s.conns k)).open_ = (s.conns k).open_) : Still s (s.set k f) where
  slots := rfl
  joined := rfl
  rung := forall_set (P := fun j c => c.rung = (s.conns j).rung) hrung fun _ _ => rfl
  got := forall_set (P := fun j c => c.got = (s.conns j).got) hgot fun _ _ => rfl
  asked := forall_set (P := fun j c => c.asked = (s.conns j).asked) hasked fun _ _ => rfl
  open_ := forall_set (P := fun j c => c.open_ = (s.conns j).open_) hopen fun _ _ => rfl

theorem Still.trans {s'' : Served} (h : Still s s') (h' : Still s' s'') : Still s s'' where
  slots := h'.slots.trans h.slots
  joined := h'.joined.trans h.joined
  rung := fun k => (h'.rung k).trans (h.rung k)
  got := fun k => (h'.got k).trans (h.got k)
  asked := fun k => (h'.asked k).trans (h.asked k)
  open_ := fun k => (h'.open_ k).trans (h.open_ k)

theorem still_of_conns (hslots : s'.slots = s.slots) (hjoined : s'.joined = s.joined)
    (hconns : s'.conns = s.conns) : Still s s' where
  slots := hslots
  joined := hjoined
  rung := fun k => by rw [hconns]
  got := fun k => by rw [hconns]
  asked := fun k => by rw [hconns]
  open_ := fun k => by rw [hconns]

theorem still_say (s : Served) (k : ℕ) (a : Answer) : Still s (s.say k a) :=
  { still_set (s := s) (k := k) (f := fun c => c.say a) rfl rfl rfl rfl with }

theorem still_enqueue (s : Served) (i k : ℕ) : Still s (s.enqueue i k) :=
  { still_set (s := s) (k := k) (f := fun c => { c with queued := true }) rfl rfl rfl rfl with }

theorem still_cutOff (s : Served) (k : ℕ) (id : UInt64) : Still s (s.cutOff k id) :=
  { (still_set (s := s) (k := k) (f := fun c => { c with cancel := false }) rfl rfl rfl rfl).trans
      (still_say _ k (.error id cancelled)) with }

/-- A request is answered at once, or starts to stream. -/
theorem still_answer (s : Served) (k : ℕ) (w : World) : Still s (s.answer k w) ∧
    (s.answer k w).queue = s.queue ∧
    ((s.answer k w).phase = s.phase ∨ ∃ id, (s.answer k w).phase = .streams k id) := by
  have hset : Still s (s.set k fun c => { c with queued := false, cancel := false }) :=
    still_set rfl rfl rfl rfl
  unfold Served.answer
  dsimp only
  split
  · exact ⟨hset.trans (still_say _ k _), rfl, .inl rfl⟩
  · split
    · refine ⟨?_, rfl, .inl rfl⟩
      exact { hset.trans (still_say _ k _) with }
    · exact ⟨{ hset with }, rfl, .inr ⟨_, rfl⟩⟩

namespace Still

theorem unread (h : Still s s') (k : ℕ) : (s'.conns k).unread = (s.conns k).unread := by
  rw [Conn.unread, Conn.unread, h.rung, h.got]

theorem heard (h : Still s s') (k : ℕ) : (s'.conns k).heard = (s.conns k).heard := by
  rw [Conn.heard, Conn.heard, h.rung, h.got]

theorem waiting (h : Still s s') : s'.waiting = s.waiting := by
  simp only [Served.waiting, h.joined, h.unread]

end Still

/-- What one connection's doorbells add. -/
theorem waiting_set (hk : k < s.joined) : (s.set k f).waiting + (s.conns k).unread.length =
    s.waiting + (f (s.conns k)).unread.length := by
  have hmem := Finset.mem_range.mpr hk
  have hrest : ∑ j ∈ (Finset.range s.joined).erase k, ((s.set k f).conns j).unread.length =
      ∑ j ∈ (Finset.range s.joined).erase k, (s.conns j).unread.length := by
    apply Finset.sum_congr rfl
    intro j hj
    rw [conns_set_ne (Finset.ne_of_mem_erase hj)]
  have hbefore := Finset.add_sum_erase _ (fun j => (s.conns j).unread.length) hmem
  have hafter := Finset.add_sum_erase _ (fun j => ((s.set k f).conns j).unread.length) hmem
  rw [conns_set_self, hrest] at hafter
  change ∑ j ∈ Finset.range s.joined, ((s.set k f).conns j).unread.length + _ =
    ∑ j ∈ Finset.range s.joined, (s.conns j).unread.length + _
  omega

/-- Reading doorbells is progress. -/
theorem waiting_hearAll {n : ℕ} (h : Fair s) (hk : k < s.joined) (hpos : 0 < n)
    (hle : n ≤ (s.conns k).unread.length) :
    (s.set k fun c => c.hearAll n).waiting < s.waiting := by
  have hset := waiting_set (f := fun c => c.hearAll n) hk
  rw [((h.conn k).hearAll n).2.1, List.length_drop] at hset
  omega

theorem Fair.seated {i : ℕ} {b : Bool} {todo : List ℕ} (h : Fair s)
    (hp : s.phase = .reads i k b todo) : k < s.joined :=
  h.joined i k (h.not_queued hp).1

theorem Fair.seated_hears {id : UInt64} (h : Fair s) (hp : s.phase = .hears k id) :
    k < s.joined := by
  obtain ⟨i, hat⟩ := (h.answering (.inr hp)).seated
  exact h.joined i k hat

/-- A step of the daemon within a round leaves it less to do. -/
theorem work_own (h : Fair s) (he : Effect s e s') (hown : e.own) : s'.work < s.work := by
  unfold work
  cases he with
  | request | cancel | close | read | text | fail => exact absurd hown.1 (by simp [Event.outside])
  | poll => exact absurd hown.2 (by simp [Event.polls])
  | rung hp =>
    simp only [waiting, rank, hp, List.length_nil]
    omega
  | skip hp hnone =>
    simp only [waiting, rank, hp, List.length_cons]
    omega
  | look hp hat =>
    simp only [waiting, rank, hp, List.length_cons]
    omega
  | chunk hp hpos hle =>
    have hwaiting := waiting_hearAll h (h.seated hp) hpos hle
    simp only [rank, hp]
    exact Nat.add_lt_add_right hwaiting _
  | between hp hpos hle =>
    have hwaiting := waiting_hearAll h (h.seated_hears hp) hpos hle
    exact Nat.add_lt_add_right hwaiting _
  | @enqueue i k todo hp hempty =>
    have hwaiting := (still_enqueue s i k).waiting
    have hlength : (s.enqueue i k).queue.length = s.queue.length + 1 := List.length_append
    have hrank : s.rank = 2 * s.queue.length + 5 + 4 * todo.length := by simp only [rank, hp]
    change (s.enqueue i k).waiting + (2 * (s.enqueue i k).queue.length + 2 + 4 * todo.length) < _
    omega
  | quiet hp hempty hb =>
    simp only [waiting, rank, hp]
    omega
  | leave hp hclosed =>
    simp only [waiting, rank, hp]
    omega
  | @answer i k queue w hp hqueue hat hcomes =>
    obtain ⟨hstill, hqueue', hphase⟩ := still_answer { s with queue } k w
    have hrank : s.rank = 2 * queue.length + 3 := by
      simp only [rank, hp, hqueue, List.length_cons]
      omega
    have hless : ({ s with queue }.answer k w).rank ≤ 2 * queue.length + 2 := by
      rcases hphase with hphase | ⟨id, hphase⟩
      · rw [rank, hphase.trans hp, hqueue']
        exact Nat.le_succ _
      · rw [rank, hphase]
        simp only [hqueue', le_refl]
    rw [hstill.waiting]
    change s.waiting + _ < _
    omega
  | stale hp hqueue hnone =>
    simp only [waiting, rank, hp, hqueue, List.length_cons]
    omega
  | goOn hp =>
    simp only [waiting, rank, hp]
    omega
  | @cut _ k id _ hp hwhy hcomes =>
    rw [(still_cutOff s k id).waiting]
    rcases hp with hp | hp
    · simp only [rank, hp]
      exact Nat.add_lt_add_left (Nat.lt_succ_self _) _
    · simp only [rank, hp]
      exact Nat.add_lt_add_left (Nat.lt_succ_of_lt (Nat.lt_succ_self _)) _
  | @last _ k id a _ hp ha hcomes =>
    have hwaiting := (still_say s k a).waiting
    change (s.say k a).waiting + (2 * s.queue.length + 1) < _
    simp only [rank, hp]
    omega
  | finish hp hqueue =>
    have hzero : ∀ b : Bool, rank { s with stop := false, phase := if b then .stopped else .poll } = 0 := by
      intro b
      cases b <;> rfl
    rw [hzero]
    simp only [waiting, rank, hp]
    omega

/-- A client, or the engine with a text, adds one thing to do. -/
theorem work_outside (he : Effect s e s') (h : Fair s) (hout : e.outside = true) :
    s'.work ≤ s.work + 1 := by
  have hring : ∀ {k : ℕ} {f : Conn → Conn} {b : Bell}, k < s.joined →
      (f (s.conns k)).rung = (s.conns k).rung ++ [b] → (f (s.conns k)).got = (s.conns k).got →
      (s.set k f).work ≤ s.work + 1 := by
    intro k f b hk hrung hgot
    have hset := waiting_set (f := f) hk
    have hunread : (f (s.conns k)).unread.length = (s.conns k).unread.length + 1 := by
      rw [Conn.unread, hrung, hgot, List.drop_append_of_le_length (h.conn k).got,
        List.length_append]
      rfl
    change (s.set k f).waiting + s.rank ≤ s.waiting + s.rank + 1
    omega
  cases he with
  | request hk hopen hall => exact hring hk rfl rfl
  | cancel hk => exact hring hk rfl rfl
  | @close k hk =>
    have hset := waiting_set (f := fun c => { c with open_ := false }) hk
    change (s.set k fun c => { c with open_ := false }).waiting + s.rank ≤ s.waiting + s.rank + 1
    have hunread : Conn.unread { s.conns k with open_ := false } = (s.conns k).unread := rfl
    rw [hunread] at hset
    omega
  | @read k tail ends hk hends =>
    have hset := waiting_set (f := fun c => { c with tail, ends }) hk
    change (s.set k fun c => { c with tail, ends }).waiting + s.rank ≤ s.waiting + s.rank + 1
    have hunread : Conn.unread { s.conns k with tail, ends } = (s.conns k).unread := rfl
    rw [hunread] at hset
    omega
  | fail hp =>
    change s.waiting + 0 ≤ s.waiting + s.rank + 1
    omega
  | @text k id t hp hroom =>
    have hwaiting := (still_say s k (.text id t)).waiting
    change (s.say k (.text id t)).waiting + (2 * s.queue.length + 3) ≤ s.waiting + s.rank + 1
    simp only [rank, hp]
    omega
  | cut hown | last hown => exact absurd hout (by rw [hown.1]; decide)
  | _ => cases hout

/-! ### No request is forgotten -/

theorem heard_of_unread (h : Fair s) (hempty : (s.conns k).unread = []) :
    (s.conns k).heard = (s.conns k).asked.length := by
  rw [Conn.heard, List.take_of_length_le (List.drop_eq_nil_iff.mp hempty), (h.conn k).rung]

/-- Slots whose doorbells are still to be read in this round. -/
def todo (s : Served) : List ℕ :=
  match s.phase with
  | .rings todo => todo
  | .reads i _ _ todo => i :: todo
  | _ => []

/-- The first `N k` requests of each connection `k` are read, or will be in this round. -/
def Caught (N : ℕ → ℕ) (s : Served) : Prop :=
  ∀ i k, s.At i k → N k ≤ (s.conns k).asked.length ∧ (N k ≤ (s.conns k).heard ∨ i ∈ s.todo)

variable {N : ℕ → ℕ}

theorem Caught.still (h : Caught N s) (hstill : Still s s')
    (htodo : ∀ i ∈ s.todo, i ∈ s'.todo ∨
      ∀ k, s.At i k → (s.conns k).heard = (s.conns k).asked.length) : Caught N s' := by
  intro i k hat
  have hat : s.At i k := by
    rw [At, ← hstill.slots]
    exact hat
  obtain ⟨hasked, hheard⟩ := h i k hat
  rw [hstill.asked, hstill.heard]
  refine ⟨hasked, ?_⟩
  rcases hheard with hheard | hi
  · exact .inl hheard
  · rcases htodo i hi with hi | hall
    · exact .inr hi
    · exact .inl (hasked.trans (hall k hat).ge)

/-- One connection is read further, or asks for more. -/
theorem Caught.set (h : Caught N s) (hslots : s'.slots = s.slots)
    (hconns : s'.conns = (s.set k f).conns) (htodo : s'.todo = s.todo)
    (hasked : (s.conns k).asked.length ≤ (f (s.conns k)).asked.length)
    (hheard : (s.conns k).heard ≤ (f (s.conns k)).heard) : Caught N s' := by
  intro i j hat
  have hat : s.At i j := by
    rw [At, ← hslots]
    exact hat
  rw [hconns, htodo]
  refine forall_set (P := fun j c => N j ≤ (s.conns j).asked.length ∧
    (N j ≤ (s.conns j).heard ∨ i ∈ s.todo) → N j ≤ c.asked.length ∧
    (N j ≤ c.heard ∨ i ∈ s.todo)) ?_ ?_ j (h i j hat)
  · rintro ⟨ha, hb⟩
    exact ⟨ha.trans hasked, hb.imp_left fun hb => hb.trans hheard⟩
  · exact fun _ _ hb => hb

theorem caught_effect (h : Caught N s) (hfair : Fair s) (he : Effect s e s')
    (hpolls : e.polls = false) : Caught N s' := by
  have hdone : ∀ {s' : Served}, Still s s' → s.todo = [] → Caught N s' := by
    intro s' hstill htodo
    apply h.still hstill
    intro i hi
    rw [htodo] at hi
    cases hi
  cases he with
  | request hk hopen hall =>
    refine h.set rfl rfl rfl ?_ (Conn.heard_rung (hfair.conn _) .request).ge
    simp
  | cancel hk => exact h.set rfl rfl rfl le_rfl (Conn.heard_rung (hfair.conn _) .cancel).ge
  | close hk => exact h.set rfl rfl rfl le_rfl le_rfl
  | @read k tail ends hk hends => exact h.set (f := fun c => { c with tail, ends }) rfl rfl rfl le_rfl le_rfl
  | fail hp => exact hdone (still_of_conns rfl rfl rfl) (by rw [Served.todo, hp])
  | poll hp => cases hpolls
  | rung hp =>
    refine hdone ?_ (by rw [Served.todo, hp])
    exact still_of_conns rfl rfl rfl
  | @skip i todo hp hnone =>
    refine h.still (still_of_conns rfl rfl rfl) ?_
    intro j hj
    rw [Served.todo, hp] at hj
    rcases List.mem_cons.mp hj with rfl | hj
    · exact .inr fun k hat => absurd hat (hnone k)
    · exact .inl hj
  | look hp hat =>
    refine h.still (still_of_conns rfl rfl rfl) ?_
    intro j hj
    rw [Served.todo, hp] at hj
    exact .inl hj
  | @chunk i k n b todo hp hpos hle =>
    refine h.set (f := fun c => c.hearAll n) rfl rfl ?_ ?_ ?_
    · rw [Served.todo, Served.todo, hp]
    · exact (congrArg List.length (Conn.hearAll_same _ (s.conns k)).2.1).ge
    · rw [((hfair.conn k).hearAll n).2.2]
      exact Nat.le_add_right _ _
  | @between k n id hp hpos hle =>
    refine h.set (f := fun c => c.hearAll n) rfl rfl rfl ?_ ?_
    · exact (congrArg List.length (Conn.hearAll_same _ (s.conns k)).2.1).ge
    · rw [((hfair.conn k).hearAll n).2.2]
      exact Nat.le_add_right _ _
  | @enqueue i k todo hp hempty =>
    refine h.still ?_ ?_
    · exact { still_enqueue s i k with }
    intro j hj
    rw [Served.todo, hp] at hj
    rcases List.mem_cons.mp hj with rfl | hj
    · refine .inr fun l hl => ?_
      obtain rfl := (hfair.not_queued hp).1.conn_eq hl
      exact heard_of_unread hfair hempty
    · exact .inl hj
  | @quiet i k b todo hp hempty hb =>
    refine h.still (still_of_conns rfl rfl rfl) ?_
    intro j hj
    rw [Served.todo, hp] at hj
    rcases List.mem_cons.mp hj with rfl | hj
    · refine .inr fun l hl => ?_
      obtain rfl := (hfair.not_queued hp).1.conn_eq hl
      exact heard_of_unread hfair hempty
    · exact .inl hj
  | @leave i k b todo hp hclosed =>
    intro j l hl
    rw [At, List.getElem?_set] at hl
    split at hl
    · split at hl <;> cases hl
    · next hne =>
      obtain ⟨hasked, hheard⟩ := h j l hl
      refine ⟨hasked, hheard.imp_right fun hj => ?_⟩
      rw [Served.todo, hp] at hj
      rcases List.mem_cons.mp hj with rfl | hj
      · exact absurd rfl hne
      · exact hj
  | answer hp hqueue hat hcomes =>
    refine hdone ?_ (by rw [Served.todo, hp])
    exact { (still_answer _ _ _).1 with }
  | stale hp hqueue hnone =>
    refine hdone ?_ (by rw [Served.todo, hp])
    exact still_of_conns rfl rfl rfl
  | text hp hroom =>
    refine hdone ?_ (by rw [Served.todo, hp])
    exact { still_say s _ _ with }
  | goOn hp =>
    refine hdone ?_ (by rw [Served.todo, hp])
    exact still_of_conns rfl rfl rfl
  | cut _ hp _ _ =>
    refine hdone (still_cutOff _ _ _) ?_
    rcases hp with hp | hp
    · rw [Served.todo, hp]
    · rw [Served.todo, hp]
  | last _ hp _ _ =>
    refine hdone ?_ (by rw [Served.todo, hp])
    exact { still_say s _ _ with }
  | finish hp hqueue =>
    refine hdone ?_ (by rw [Served.todo, hp])
    exact still_of_conns rfl rfl rfl

/-- After `poll` every slot that has rung is to be looked after. -/
theorem caught_poll {join : Bool} (h : Fair s) (hN : ∀ k, N k ≤ (s.conns k).asked.length) :
    Caught N { if join then s.accept else s with
      phase := .rings ((List.range s.slots.length).filter s.ready) } := by
  have hold : ∀ i k, s.At i k → N k ≤ (s.conns k).asked.length ∧
      (N k ≤ (s.conns k).heard ∨ i ∈ (List.range s.slots.length).filter s.ready) := by
    intro i k hat
    refine ⟨hN k, ?_⟩
    rw [List.mem_filter, List.mem_range]
    by_cases hempty : (s.conns k).unread = []
    · exact .inl ((hN k).trans (heard_of_unread h hempty).ge)
    · refine .inr ⟨(List.getElem?_eq_some_iff.mp hat).1, ?_⟩
      unfold At at hat
      simp [ready, hat, hempty]
  cases join with
  | false => exact hold
  | true =>
    intro i k hat
    obtain ⟨free, hfree, hplace⟩ := place_spec s.slots s.joined
    change (place s.slots s.joined)[i]? = some (some k) at hat
    rw [hplace] at hat
    split at hat
    · obtain rfl := Option.some.inj (Option.some.inj hat)
      have hzero := hN s.joined
      rw [h.fresh s.joined le_rfl] at hzero
      exact ⟨hN _, .inl (hzero.trans (Nat.zero_le _))⟩
    · exact hold i k hat

/-- Back at `poll`, what was to be read is answered. -/
theorem answered_of_caught (h : Fair s) (hc : Caught N s) (hp : s.phase = .poll)
    (hN : ∀ k, s.joined ≤ k → N k = 0) (hopen : (s.conns k).open_ = true) :
    N k ≤ (s.conns k).lasts.length := by
  rcases Nat.lt_or_ge k s.joined with hk | hk
  · obtain ⟨i, hat⟩ := h.present k hk hopen
    obtain ⟨-, hheard | hi⟩ := hc i k hat
    · have hphase := h.phase
      rw [hp] at hphase
      have hqueued : (s.conns k).queued = false := by
        by_contra hq
        have hi := h.in_queue i k hat (Bool.of_not_eq_false hq)
        rw [show s.queue = [] from hphase] at hi
        cases hi
      have hcounts := h.counts i k hat
      rw [pending, hqueued, hp] at hcounts
      exact hheard.trans hcounts.le
    · rw [todo, hp] at hi
      cases hi
  · rw [hN k hk]
    exact Nat.zero_le _

/-- Within a round no slot is added, and nothing that was asked is taken back. -/
theorem steady_effect (he : Effect s e s') (hpolls : e.polls = false) :
    s'.slots.length = s.slots.length ∧ s'.joined = s.joined ∧
      ∀ k, (s.conns k).asked.length ≤ (s'.conns k).asked.length := by
  have hstill : ∀ {s' : Served}, Still s s' → s'.slots.length = s.slots.length ∧
      s'.joined = s.joined ∧ ∀ k, (s.conns k).asked.length ≤ (s'.conns k).asked.length := by
    intro s' h
    exact ⟨congrArg List.length h.slots, h.joined, fun k => (congrArg List.length (h.asked k)).ge⟩
  have hset : ∀ {k : ℕ} {f : Conn → Conn},
      (s.conns k).asked.length ≤ (f (s.conns k)).asked.length →
      ∀ j, (s.conns j).asked.length ≤ ((s.set k f).conns j).asked.length := by
    intro k f hf
    exact forall_set (P := fun j c => (s.conns j).asked.length ≤ c.asked.length) hf fun _ _ => le_rfl
  have hears : ∀ k n, (s.conns k).asked.length ≤ ((s.conns k).hearAll n).asked.length := by
    intro k n
    exact (congrArg List.length (Conn.hearAll_same _ (s.conns k)).2.1).ge
  cases he with
  | request hk hopen hall => exact ⟨rfl, rfl, hset (by simp)⟩
  | cancel hk | close hk | read hk hends => exact ⟨rfl, rfl, hset le_rfl⟩
  | poll hp => cases hpolls
  | @chunk i k n b todo hp hpos hle =>
    exact ⟨rfl, rfl, hset (k := k) (f := fun c => c.hearAll n) (hears k n)⟩
  | @between k n id hp hpos hle => exact ⟨rfl, rfl, hset (hears k n)⟩
  | @enqueue i k todo hp hempty => exact hstill { still_enqueue s i k with }
  | leave hp hclosed => exact ⟨List.length_set, rfl, fun _ => le_rfl⟩
  | @answer i k queue w hp hqueue hat hcomes => exact hstill { (still_answer { s with queue } k w).1 with }
  | cut _ hp _ _ => exact hstill (still_cutOff _ _ _)
  | @text k id t hp hroom => exact hstill { still_say s k (.text id t) with }
  | @last _ k id a _ hp _ _ => exact hstill { still_say s k a with }
  | fail | rung | skip | look | quiet | stale | goOn | finish => exact ⟨rfl, rfl, fun _ => le_rfl⟩

/-- A round of the loop. -/
theorem round {es : List Event} {t : Served} (h : Fair s)
    (hrun : Transition.run step s es = some t) (hpolls : ∀ e ∈ es, e.polls = false) :
    Fair t ∧ es.length + t.work ≤ s.work + 2 * es.countP Event.outside ∧
      t.slots.length = s.slots.length ∧ t.joined = s.joined ∧
      (∀ k, (s.conns k).asked.length ≤ (t.conns k).asked.length) ∧
      ∀ N, Caught N s → Caught N t := by
  have hwork : es.length + t.work ≤ s.work + 2 * es.countP Event.outside := by
    refine Transition.run_length_le (I := Fair) hrun h (fun _ _ _ hstep hf => fair_step hf hstep) ?_ ?_
    · exact fun u e u' he hf hstep hout => work_own hf (effect_of_step hstep) ⟨hout, hpolls e he⟩
    · exact fun u e u' hf hstep hout => work_outside (effect_of_step hstep) hf hout
  have hkeep := Transition.run_invariant (I := fun t => Fair t ∧ t.slots.length = s.slots.length ∧
    t.joined = s.joined ∧ (∀ k, (s.conns k).asked.length ≤ (t.conns k).asked.length) ∧
    ∀ N, Caught N s → Caught N t) hrun ⟨h, rfl, rfl, fun _ => le_rfl, fun _ hc => hc⟩ ?_
  · exact ⟨hkeep.1, hwork, hkeep.2⟩
  · rintro u e u' he hstep ⟨hf, hslots, hjoined, hasked, hcaught⟩
    have heffect := effect_of_step hstep
    obtain ⟨hslots', hjoined', hasked'⟩ := steady_effect heffect (hpolls e he)
    refine ⟨fair_step hf hstep, hslots'.trans hslots, hjoined'.trans hjoined, ?_, ?_⟩
    · exact fun k => (hasked k).trans (hasked' k)
    · exact fun N hc => caught_effect (hcaught N hc) hf heffect (hpolls e he)

theorem work_poll {join : Bool} (h : Fair s) (hp : s.phase = .poll) :
    work { if join then s.accept else s with
      phase := .rings ((List.range s.slots.length).filter s.ready) } ≤
      s.work + 2 + 4 * s.slots.length := by
  have hlength : ((List.range s.slots.length).filter s.ready).length ≤ s.slots.length :=
    (List.length_filter_le _ _).trans List.length_range.le
  have hqueue : s.queue = [] := by
    have hphase := h.phase
    rw [hp] at hphase
    exact hphase
  have hwaiting : (if join then s.accept else s).waiting = s.waiting := by
    cases join with
    | false => rfl
    | true =>
      change ∑ k ∈ Finset.range (s.joined + 1), (s.conns k).unread.length = _
      rw [Finset.sum_range_succ, h.fresh s.joined le_rfl]
      rfl
  have hqueue' : (if join then s.accept else s).queue = [] := by
    cases join <;> exact hqueue
  change (if join then s.accept else s).waiting + (2 * (if join then s.accept else s).queue.length +
    2 + 4 * ((List.range s.slots.length).filter s.ready).length) ≤ s.waiting + s.rank + _ + _
  rw [hwaiting, hqueue', List.length_nil]
  omega

/-- Every event before the first `poll`, if there is one. -/
theorem first_poll (es : List Event) : (∀ e ∈ es, e.polls = false) ∨
    ∃ as join bs, es = as ++ .poll join :: bs ∧ ∀ e ∈ as, e.polls = false := by
  cases hfind : es.find? Event.polls with
  | none => exact .inl fun e he => Bool.eq_false_of_not_eq_true (List.find?_eq_none.mp hfind e he)
  | some e =>
    obtain ⟨he, as, bs, rfl, has⟩ := List.find?_eq_some_iff_append.mp hfind
    cases e with
    | poll join => exact .inr ⟨as, join, bs, rfl, fun a ha => by simpa using has a ha⟩
    | _ => cases he

/-- A run of this length, with `n` steps of clients and texts, answers what was asked at its
start. -/
def patience (s : Served) (n : ℕ) : ℕ := 2 * s.work + 4 * s.slots.length + 6 * n + 4

/-- All that was asked in `s` is answered in `u`, but for clients that left. -/
def AllAnswered (s u : Served) : Prop :=
  ∀ k, (u.conns k).open_ = true → (s.conns k).asked.length ≤ (u.conns k).lasts.length

/-- A run with at most `n` steps of clients and texts gets to every request, in at most two
rounds: what was not read in the first is read in the second. -/
theorem answered_in_time {n : ℕ} {es : List Event} {t : Served} (h : Fair s)
    (hrun : Transition.run step s es = some t) (hout : es.countP Event.outside ≤ n)
    (hlong : s.patience n ≤ es.length) :
    ∃ xs u, xs <+: es ∧ Transition.run step s xs = some u ∧ AllAnswered s u := by
  unfold patience at hlong
  rcases first_poll es with hnone | ⟨as, join, bs, rfl, has⟩
  · have hwork := (round h hrun hnone).2.1
    omega
  obtain ⟨u₀, hrun₀, hrest⟩ := Transition.run_append_eq_some.mp hrun
  obtain ⟨u₁, hstep₁, hrest⟩ := Transition.run_cons_eq_some.mp hrest
  obtain ⟨hfair₀, hwork₀, hslots₀, hjoined₀, hasked₀, -⟩ := round h hrun₀ has
  have hfair₁ := fair_step hfair₀ hstep₁
  have heffect := effect_of_step hstep₁
  obtain ⟨hcaught₁, hwork₁, hjoined₁⟩ :
      Caught (fun k => (s.conns k).asked.length) u₁ ∧
      u₁.work ≤ u₀.work + 2 + 4 * u₀.slots.length ∧ u₀.joined ≤ u₁.joined := by
    cases heffect with
    | poll hp =>
      refine ⟨caught_poll hfair₀ hasked₀, work_poll hfair₀ hp, ?_⟩
      cases join with
      | false => exact le_rfl
      | true => exact Nat.le_succ _
    | cut hown | last hown => exact absurd hown.2 (by simp [Event.polls])
  rw [List.countP_append, List.countP_cons] at hout
  rw [List.length_append, List.length_cons] at hlong
  rcases first_poll bs with hnone | ⟨as', join', bs', rfl, has'⟩
  · have hwork := (round hfair₁ hrest hnone).2.1
    omega
  obtain ⟨u₂, hrun₂, hrest₂⟩ := Transition.run_append_eq_some.mp hrest
  obtain ⟨hfair₂, -, -, hjoined₂, -, hcaught⟩ := round hfair₁ hrun₂ has'
  have hp₂ : u₂.phase = .poll := by
    obtain ⟨u₃, hstep₃, -⟩ := Transition.run_cons_eq_some.mp hrest₂
    cases effect_of_step hstep₃ with
    | poll hp => exact hp
    | cut hown | last hown => exact absurd hown.2 (by simp [Event.polls])
  refine ⟨as ++ .poll join :: as', u₂, ?_, ?_, ?_⟩
  · rw [List.prefix_append_right_inj, List.prefix_cons_inj]
    exact List.prefix_append _ _
  · exact Transition.run_append_eq_some.mpr
      ⟨u₀, hrun₀, Transition.run_cons_eq_some.mpr ⟨u₁, hstep₁, hrun₂⟩⟩
  · intro k hopen
    refine answered_of_caught hfair₂ (hcaught _ hcaught₁) hp₂ ?_ hopen
    intro j hj
    rw [h.fresh j (by omega)]
    rfl

theorem isSome_step (h : (s.stepDaemon e).isSome) : (s.step e).isSome := by
  rw [step, Option.isSome_or, h, Bool.or_true]

/-- Reading the doorbells of a connection, there is some event. -/
theorem next_bell (s : Served) (k : ℕ) : (s.conns k).unread = [] ∧ (s.conns k).open_ = true ∨
    (s.conns k).unread = [] ∧ (s.conns k).open_ = false ∨
    ∃ n, 0 < n ∧ n ≤ 64 ∧ n ≤ (s.conns k).unread.length := by
  by_cases hempty : (s.conns k).unread = []
  · cases hopen : (s.conns k).open_ with
    | true => exact .inl ⟨hempty, rfl⟩
    | false => exact .inr (.inl ⟨hempty, rfl⟩)
  · have hpos := List.length_pos_iff.mpr hempty
    exact .inr (.inr ⟨1, one_pos, by decide, hpos⟩)

/-- The daemon waits for room in the ring of connection `k`, whose client stays, for a message that answers it. -/
structure Waits (s : Served) (k : ℕ) (a : Answer) : Prop where
  seated : ∃ i, s.At i k
  answers : Answers (s.conns k).area a
  stays : (s.conns k).open_ = true
  full : ¬(s.conns k).HasRoom a

theorem comes_or_waits {a : Answer} (hat : ∃ i, s.At i k) (ha : Answers (s.conns k).area a) :
    s.Comes k a ∨ s.Waits k a := by
  by_cases hroom : (s.conns k).HasRoom a
  · exact .inl (.inl hroom)
  · cases hopen : (s.conns k).open_ with
    | false => exact .inl (.inr hopen)
    | true => exact .inr ⟨hat, ha, hopen, hroom⟩

theorem answers_of_reply {w : World} {a : Answer} (h : a ∈ s.reply k w) : Answers (s.conns k).area a := by
  unfold reply at h
  dsimp only at h
  split at h
  · obtain rfl := Option.some.inj h
    exact .cancelled
  · split at h
    · next hlast =>
      obtain rfl := Option.some.inj h
      exact .last hlast
    · cases h

/-- A client for which the daemon waits, and which has read everything, is to get more than half the ring can hold. -/
theorem Waits.long {a : Answer} (h : Fair s) (hw : s.Waits k a) (hread : (s.conns k).ends = []) : ¬a.Short := by
  intro hshort
  have hring := (h.conn k).ring
  rw [hread] at hring
  have hhalf := need_le_half.mpr ((short_iff hw.answers).mpr hshort)
  have hskip := @skip_le_of_half (s.conns k).head _ hhalf
  apply hw.full
  change (s.conns k).tail = (s.conns k).head at hring
  rw [Conn.HasRoom, Conn.skip, hring]
  omega

/-- The daemon is stuck only where it waits for room. -/
theorem goes_on (h : Fair s) (hs : Streaming s) (hp : s.phase ≠ .stopped) :
    (∃ e, e.outside = false ∧ (s.step e).isSome) ∨ ∃ k a, s.Waits k a := by
  cases hphase : s.phase with
  | stopped => exact absurd hphase hp
  | poll => exact .inl ⟨.poll false, rfl, isSome_step (by simp [stepDaemon, hphase])⟩
  | rings todo =>
    refine .inl ⟨.ring, rfl, isSome_step ?_⟩
    cases todo with
    | nil => simp [stepDaemon, hphase]
    | cons i todo =>
      simp only [stepDaemon, hphase]
      split <;> rfl
  | reads i k b todo =>
    obtain ⟨hempty, hopen⟩ | ⟨hempty, hopen⟩ | ⟨n, hn⟩ := next_bell s k
    · refine .inl ⟨.block, rfl, isSome_step ?_⟩
      simp only [stepDaemon, hphase, hempty, hopen, and_self, if_true]
      split <;> rfl
    · exact .inl ⟨.eof, rfl, isSome_step (by simp [stepDaemon, hphase, hempty, hopen])⟩
    · exact .inl ⟨.chunk n, rfl, isSome_step (by simp [stepDaemon, hphase, hn])⟩
  | drains =>
    cases hqueue : s.queue with
    | nil => exact .inl ⟨.finish, rfl, isSome_step (by simp [stepDaemon, hphase, hqueue])⟩
    | cons i queue =>
      obtain ⟨k, hat, hq⟩ := h.queue_at i (by rw [hqueue]; exact List.mem_cons_self)
      have hstep : (∀ a ∈ s.reply k default, s.Comes k a) → (s.step (.pop default)).isSome := by
        intro hcomes
        refine isSome_step ?_
        unfold At at hat
        simp only [stepDaemon, hphase, hqueue, hat, hq, if_true]
        rw [if_pos hcomes]
        rfl
      cases hreply : s.reply k default with
      | none =>
        refine .inl ⟨_, rfl, hstep ?_⟩
        rw [hreply]
        intro b hb
        cases hb
      | some a =>
        rcases comes_or_waits ⟨i, hat⟩ (answers_of_reply hreply) with hcomes | hwaits
        · refine .inl ⟨_, rfl, hstep ?_⟩
          rw [hreply]
          intro b hb
          obtain rfl := Option.some.inj hb
          exact hcomes
        · exact .inr ⟨k, a, hwaits⟩
  | streams k id =>
    obtain ⟨-, -, hid, hat⟩ := h.answering (.inl hphase)
    obtain ⟨w, hw⟩ := hs k id (.inl hphase)
    have hdone : Answers (s.conns k).area (.done id 0 0 0 0) := hid ▸ .done hw
    rcases comes_or_waits hat hdone with hcomes | hwaits
    · exact .inl ⟨.done 0 0 0 0, rfl, isSome_step (by simp [stepDaemon, hphase, hcomes])⟩
    · exact .inr ⟨k, _, hwaits⟩
  | hears k id =>
    obtain ⟨-, -, hid, hat⟩ := h.answering (.inr hphase)
    obtain ⟨hempty, hopen⟩ | ⟨hempty, hopen⟩ | ⟨n, hn⟩ := next_bell s k
    · have hcancelled : Answers (s.conns k).area (.error id cancelled) := hid ▸ .cancelled
      rcases comes_or_waits hat hcancelled with hcomes | hwaits
      · refine .inl ⟨.block, rfl, isSome_step ?_⟩
        simp only [stepDaemon, hphase, hempty, hopen, and_self, if_true, hcomes]
        split <;> rfl
      · exact .inr ⟨k, _, hwaits⟩
    · exact .inl ⟨.eof, rfl, isSome_step (by simp [stepDaemon, hphase, hempty, hopen])⟩
    · exact .inl ⟨.chunk n, rfl, isSome_step (by simp [stepDaemon, hphase, hn])⟩

theorem log_when_idle (h : Fair s) (hp : s.phase = .poll ∨ s.phase = .stopped) :
    s.answered = s.accepted := by
  have hlog := h.log
  have hphase := h.phase
  rcases hp with hp | hp
  · rw [hp] at hphase hlog
    rw [show s.queue = [] from hphase] at hlog
    simpa [Phase.current] using hlog.symm
  · rw [hp] at hphase hlog
    rw [show s.queue = [] from hphase] at hlog
    simpa [Phase.current] using hlog.symm

/-- Three clients. The first asks and leaves before its doorbell is read, the second asks the
daemon to shut down, and the third asks when the doorbells of that round are read. -/
def lateRun : List Event :=
  [.poll true, .ring, .finish, .poll true, .ring, .finish, .poll true, .ring, .finish,
    .request 0 (Commands.ps 1), .close 0, .request 1 (Commands.down 2), .poll false,
    .ring, .chunk 1, .eof, .ring, .chunk 1, .block, .ring, .request 2 (Commands.ps 3),
    .pop default, .finish]

theorem isSome_lateRun : (Transition.run step initial lateRun).isSome := by decide

def lateState : Served := (Transition.run step initial lateRun).get isSome_lateRun

theorem lateState_spec : lateState.phase = .stopped ∧ (lateState.conns 0).asked = [1] ∧
    (lateState.conns 0).got = 1 ∧ (lateState.conns 0).out = [] ∧
    (lateState.conns 2).asked = [3] ∧ (lateState.conns 2).open_ = true ∧
    (lateState.conns 2).out = [] := by decide

/-- A daemon that has stopped sends nothing more. -/
theorem out_of_stopped (hp : s.phase = .stopped) (he : Effect s e s') :
    s'.phase = .stopped ∧ ∀ k, (s'.conns k).out = (s.conns k).out := by
  have hkeep : ∀ {k : ℕ} {f : Conn → Conn}, (f (s.conns k)).out = (s.conns k).out →
      ∀ j, ((s.set k f).conns j).out = (s.conns j).out := fun hf =>
    forall_set (P := fun j c => c.out = (s.conns j).out) hf fun _ _ => rfl
  cases he with
  | request | cancel | close | read => exact ⟨hp, hkeep rfl⟩
  | cut _ h => rcases h with h | h <;> rw [hp] at h <;> cases h
  | fail h | poll h | rung h | skip h | look h | chunk h | between h | enqueue h | quiet h | leave h
  | answer h | stale h | text h | goOn h | last _ h | finish h =>
    rw [hp] at h
    cases h

/-- A client connects and asks. -/
def askRun (area : List UInt8) : List Event :=
  [.poll true, .ring, .finish, .request 0 area, .poll false, .ring, .chunk 1, .block, .ring]

/-- Its request is next. -/
def askConn (area : List UInt8) : Conn :=
  { area, rung := [.request], asked := [(read area).1], got := 1, queued := true }

theorem run_askRun (area : List UInt8) : ∃ s, Transition.run step initial (askRun area) = some s ∧ s.phase = .drains ∧
    s.queue = [0] ∧ s.slots = [some 0] ∧ s.joined = 1 ∧ s.conns 0 = askConn area :=
  ⟨_, rfl, rfl, rfl, rfl, rfl, rfl⟩

/-- The first client stays, and no model is anywhere. -/
def NothingThere : Served → Event → Prop := fun _ e => e ≠ .close 0 ∧ ∀ w, e = .pop w → w = nothingThere

/-- The daemon is about to say that there is no model of a name of `n` letters. -/
structure Unsaid (n : ℕ) (s : Served) : Prop where
  phase : s.phase = .drains
  queue : s.queue = [0]
  slots : s.slots = [some 0]
  joined : s.joined = 1
  open_ : (s.conns 0).open_ = true
  queued : (s.conns 0).queued = true
  cancel : (s.conns 0).cancel = false
  area : (s.conns 0).area = loadArea n
  asked : (s.conns 0).asked.length = 1
  out : (s.conns 0).out = []
  head : (s.conns 0).head = 0
  tail : (s.conns 0).tail = 0
  ends : (s.conns 0).ends = []

theorem Unsaid.full {n : ℕ} (h : Unsaid n s) (hlarge : RING_BYTES < n + 35) :
    ¬(s.conns 0).HasRoom (noModelAnswer n) := by
  have hneed : 4 + (31 + n) ≤ FrameRing.need (31 + n) := by
    unfold FrameRing.need FrameRing.padded
    omega
  rw [Conn.HasRoom, h.tail, length_noModelAnswer]
  omega

theorem Unsaid.reply {n : ℕ} (h : Unsaid n s) (hn : 33 + n ≤ REQUEST_BYTES) :
    s.reply 0 nothingThere = some (noModelAnswer n) := by
  unfold Served.reply
  dsimp only
  rw [h.cancel, h.area, answer_loadArea hn]
  rfl

/-- Where the whole ring has no room for the message, it is never sent. -/
theorem Unsaid.step {n : ℕ} (h : Unsaid n s) (hn : 33 + n ≤ REQUEST_BYTES) (hlarge : RING_BYTES < n + 35)
    (hallowed : NothingThere s e) (he : Effect s e s') : Unsaid n s' := by
  have hone : ∀ {k : ℕ}, k < s.joined → k = 0 := by
    intro k hk
    rw [h.joined] at hk
    omega
  have hphase := h.phase
  cases he with
  | request hk hopen hall =>
    obtain rfl := hone hk
    rw [Conn.lasts, h.out, h.asked] at hall
    cases hall
  | cancel hk =>
    obtain rfl := hone hk
    exact { h with }
  | close hk =>
    obtain rfl := hone hk
    exact absurd rfl hallowed.1
  | read hk hends =>
    obtain rfl := hone hk
    rw [h.ends] at hends
    cases hends
  | answer hp hqueue hat hcomes =>
    obtain rfl := hallowed.2 _ rfl
    rw [h.queue] at hqueue
    obtain ⟨rfl, rfl⟩ := List.cons.inj hqueue
    rw [At, h.slots] at hat
    obtain rfl := Option.some.inj (Option.some.inj hat)
    rcases hcomes _ (h.reply hn) with hroom | hclosed
    · exact absurd hroom (h.full hlarge)
    · rw [h.open_] at hclosed
      cases hclosed
  | stale hp hqueue hnone =>
    rw [h.queue] at hqueue
    obtain ⟨rfl, rfl⟩ := List.cons.inj hqueue
    have hidle := hnone 0 (by rw [At, h.slots]; rfl)
    rw [h.queued] at hidle
    cases hidle
  | finish hp hqueue =>
    rw [h.queue] at hqueue
    cases hqueue
  | cut _ hp =>
    rw [hphase] at hp
    rcases hp with hp | hp <;> cases hp
  | last _ hp =>
    rw [hphase] at hp
    cases hp
  | fail hp | poll hp | rung hp | skip hp | look hp | chunk hp | between hp | enqueue hp | quiet hp | leave hp | text hp
  | goOn hp =>
    rw [hphase] at hp
    cases hp

/-- Two clients ask what is loaded, and the second cancels at once; then it asks again. -/
def cancelRun : List Event :=
  [.poll true, .ring, .finish, .poll true, .ring, .finish, .request 0 (Commands.ps 1),
    .request 1 (Commands.ps 2), .cancel 1, .poll false, .ring, .chunk 1, .block, .ring, .chunk 2, .block,
    .ring, .pop default, .pop default, .finish, .read 1, .request 1 (Commands.ps 3), .poll false, .ring,
    .chunk 1, .block, .ring, .pop default, .finish]

theorem isSome_cancelRun : (Transition.run step initial cancelRun).isSome := by decide

end Served

end Chatlink.Serve
