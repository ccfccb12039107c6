import Chatlink.Serve.LoopSteps

/-!
# Every step of the loop

What a step of a client or of the daemon can do, and that it keeps `Fair`.
-/
namespace Chatlink.Serve

namespace Event

/-- The steps the daemon's own work is not to be counted against: those of the clients, the texts
of the engine, and a failure that ends it all. -/
def outside : Event → Bool
  | .request _ _ | .cancel _ | .close _ | .read _ | .text _ | .fail => true
  | _ => false

def polls : Event → Bool
  | .poll _ => true
  | _ => false

/-- A step of the daemon within one round of its loop. -/
def own (e : Event) : Prop := e.outside = false ∧ e.polls = false

end Event

/-- What the engine ends a stream of texts with. -/
def Answer.EndsStream (id : UInt64) (a : Answer) : Prop :=
  (∃ e, a = .error id { code := .engine, text := e }) ∨
    ∃ prefill decode prompt tokens, a = .done id prefill decode prompt tokens

theorem Answer.EndsStream.ends {id : UInt64} {a : Answer} (h : a.EndsStream id) : a.Ends id := by
  obtain ⟨e, rfl⟩ | ⟨_, _, _, _, rfl⟩ := h
  · exact ⟨rfl, rfl⟩
  · exact ⟨rfl, rfl⟩

theorem Answer.EndsStream.not_cancelled {id : UInt64} {a : Answer} (h : a.EndsStream id)
    (i : UInt64) : a ≠ .error i cancelled := by
  obtain ⟨e, rfl⟩ | ⟨_, _, _, _, rfl⟩ := h
  · rintro ⟨⟩
  · rintro ⟨⟩

namespace Served

variable {s s' : Served} {e : Event}

/-- What a step can do. -/
inductive Effect (s : Served) : Event → Served → Prop
  | request {k : ℕ} {area : List UInt8} : k < s.joined → (s.conns k).open_ = true →
      (s.conns k).lasts.length = (s.conns k).asked.length →
      Effect s (.request k area) (s.set k fun c =>
        { c with area, rung := c.rung ++ [.request], asked := c.asked ++ [(read area).1] })
  | cancel {k : ℕ} : k < s.joined →
      Effect s (.cancel k) (s.set k fun c => { c with rung := c.rung ++ [.cancel] })
  | close {k : ℕ} : k < s.joined →
      Effect s (.close k) (s.set k fun c => { c with open_ := false })
  | read {k tail : ℕ} {ends : List ℕ} : k < s.joined → (s.conns k).ends = tail :: ends →
      Effect s (.read k) (s.set k fun c => { c with tail, ends })
  | fail : s.phase = .poll → Effect s .fail { s with phase := .stopped }
  | poll {join : Bool} : s.phase = .poll →
      Effect s (.poll join) { if join then s.accept else s with
        phase := .rings ((List.range s.slots.length).filter s.ready) }
  | rung : s.phase = .rings [] → Effect s .ring { s with phase := .drains }
  | skip {i : ℕ} {todo : List ℕ} : s.phase = .rings (i :: todo) → (∀ k, ¬s.At i k) →
      Effect s .ring { s with phase := .rings todo }
  | look {i k : ℕ} {todo : List ℕ} : s.phase = .rings (i :: todo) → s.At i k →
      Effect s .ring { s with phase := .reads i k false todo }
  | chunk {i k n : ℕ} {b : Bool} {todo : List ℕ} : s.phase = .reads i k b todo → 0 < n →
      n ≤ (s.conns k).unread.length →
      Effect s (.chunk n) { s.set k fun c => c.hearAll n with
        phase := .reads i k (b || .request ∈ (s.conns k).unread.take n) todo }
  | between {k n : ℕ} {id : UInt64} : s.phase = .hears k id → 0 < n →
      n ≤ (s.conns k).unread.length → Effect s (.chunk n) (s.set k fun c => c.hearAll n)
  | enqueue {i k : ℕ} {todo : List ℕ} : s.phase = .reads i k true todo → (s.conns k).unread = [] →
      Effect s .block { s.enqueue i k with phase := .rings todo }
  | quiet {i k : ℕ} {b : Bool} {todo : List ℕ} : s.phase = .reads i k b todo →
      (s.conns k).unread = [] → b = false ∨ (s.conns k).queued = true →
      Effect s .block { s with phase := .rings todo }
  | leave {i k : ℕ} {b : Bool} {todo : List ℕ} : s.phase = .reads i k b todo →
      (s.conns k).open_ = false →
      Effect s .eof { s with slots := s.slots.set i none, phase := .rings todo }
  | answer {i k : ℕ} {queue : List ℕ} {w : World} : s.phase = .drains → s.queue = i :: queue →
      s.At i k → (∀ a ∈ s.reply k w, s.Comes k a) → Effect s (.pop w) ({ s with queue }.answer k w)
  | stale {i : ℕ} {queue : List ℕ} {w : World} : s.phase = .drains → s.queue = i :: queue →
      (∀ k, s.At i k → (s.conns k).queued = false) → Effect s (.pop w) { s with queue }
  | text {k : ℕ} {id : UInt64} {t : String} : s.phase = .streams k id → (s.conns k).HasRoom (.text id t) →
      Effect s (.text t) { s.say k (.text id t) with phase := .hears k id }
  | goOn {k : ℕ} {id : UInt64} : s.phase = .hears k id →
      Effect s .block { s with phase := .streams k id }
  | cut {e : Event} {k : ℕ} {id : UInt64} : e.own → s.phase = .streams k id ∨ s.phase = .hears k id →
      (s.conns k).cancel = true ∨ (s.conns k).open_ = false → s.Comes k (.error id cancelled) →
      Effect s e (s.cutOff k id)
  | last {e : Event} {k : ℕ} {id : UInt64} {a : Answer} : e.own → s.phase = .streams k id →
      a.EndsStream id → s.Comes k a → Effect s e { s.say k a with phase := .drains }
  | finish : s.phase = .drains → s.queue = [] →
      Effect s .finish { s with stop := false, phase := if s.stop then .stopped else .poll }

theorem effect_of_stepClient (h : s.stepClient e = some s') : Effect s e s' := by
  cases e with
  | request k area =>
    simp only [stepClient] at h
    split at h
    · next hc =>
      obtain rfl := Option.some.inj h
      exact .request hc.1 hc.2.1 hc.2.2
    · cases h
  | cancel k =>
    simp only [stepClient] at h
    split at h
    · next hc =>
      obtain rfl := Option.some.inj h
      exact .cancel hc.1
    · cases h
  | close k =>
    simp only [stepClient] at h
    split at h
    · next hc =>
      obtain rfl := Option.some.inj h
      exact .close hc
    · cases h
  | read k =>
    simp only [stepClient] at h
    split at h
    · next hends =>
      split at h
      · next hc =>
        obtain rfl := Option.some.inj h
        exact .read hc.1 hends
      · cases h
    · cases h
  | _ => cases h

theorem effect_of_block (h : s.stepDaemon .block = some s') : Effect s .block s' := by
  simp only [stepDaemon] at h
  split at h
  · next i k b todo hp =>
    split at h
    · next hc =>
      split at h
      · next hb =>
        obtain rfl := Option.some.inj h
        obtain ⟨rfl, -⟩ := Bool.and_eq_true_iff.mp hb
        exact .enqueue hp hc.1
      · next hb =>
        obtain rfl := Option.some.inj h
        refine .quiet hp hc.1 ?_
        cases b with
        | false => exact .inl rfl
        | true => exact .inr (by simpa using hb)
    · cases h
  · next k id hp =>
    split at h
    · split at h
      · next hcancel =>
        split at h
        · next hcomes =>
          obtain rfl := Option.some.inj h
          exact .cut ⟨rfl, rfl⟩ (.inr hp) (.inl hcancel) hcomes
        · cases h
      · obtain rfl := Option.some.inj h
        exact .goOn hp
    · cases h
  · cases h

theorem effect_of_pop {w : World} (h : s.stepDaemon (.pop w) = some s') : Effect s (.pop w) s' := by
  simp only [stepDaemon] at h
  split at h
  · next i queue hp hqueue =>
    split at h
    · next k hat =>
      split at h
      · split at h
        · next hcomes =>
          obtain rfl := Option.some.inj h
          exact .answer hp hqueue hat hcomes
        · cases h
      · next hq =>
        obtain rfl := Option.some.inj h
        refine .stale hp hqueue fun l hl => ?_
        obtain rfl := At.conn_eq hat hl
        exact Bool.eq_false_of_not_eq_true hq
    · next hnone =>
      obtain rfl := Option.some.inj h
      exact .stale hp hqueue fun l hl => absurd hl (hnone l)
  · cases h

theorem effect_of_stepDaemon (h : s.stepDaemon e = some s') : Effect s e s' := by
  cases e with
  | request k area | cancel k | close k | read k => cases h
  | poll join =>
    simp only [stepDaemon] at h
    split at h
    · next hp =>
      obtain rfl := Option.some.inj h
      exact .poll hp
    · cases h
  | ring =>
    simp only [stepDaemon] at h
    split at h
    · next hp =>
      obtain rfl := Option.some.inj h
      exact .rung hp
    · next i todo hp =>
      split at h
      · next k hat =>
        obtain rfl := Option.some.inj h
        exact .look hp hat
      · next hnone =>
        obtain rfl := Option.some.inj h
        exact .skip hp hnone
    · cases h
  | chunk n =>
    simp only [stepDaemon] at h
    split at h
    · next hp =>
      split at h
      · next hc =>
        obtain rfl := Option.some.inj h
        exact .chunk hp hc.1 hc.2.2
      · cases h
    · next hp =>
      split at h
      · next hc =>
        obtain rfl := Option.some.inj h
        exact .between hp hc.1 hc.2.2
      · cases h
    · cases h
  | block => exact effect_of_block h
  | eof =>
    simp only [stepDaemon] at h
    split at h
    · next hp =>
      split at h
      · next hc =>
        obtain rfl := Option.some.inj h
        exact .leave hp (by simpa using hc.2)
      · cases h
    · next k id hp =>
      split at h
      · next hc =>
        obtain rfl := Option.some.inj h
        have hopen : (s.conns k).open_ = false := by simpa using hc.2
        exact .cut ⟨rfl, rfl⟩ (.inr hp) (.inr hopen) (.inr hopen)
      · cases h
    · cases h
  | pop w => exact effect_of_pop h
  | text t =>
    simp only [stepDaemon] at h
    split at h
    · next hp =>
      split at h
      · next hroom =>
        obtain rfl := Option.some.inj h
        exact .text hp hroom
      · cases h
    · cases h
  | lost t =>
    simp only [stepDaemon] at h
    split at h
    · next k id hp =>
      split at h
      · next hc =>
        obtain rfl := Option.some.inj h
        have hopen : (s.conns k).open_ = false := by simpa using hc.2
        exact .cut ⟨rfl, rfl⟩ (.inl hp) (.inr hopen) (.inr hopen)
      · cases h
    · cases h
  | broken msg =>
    simp only [stepDaemon] at h
    split at h
    · next hp =>
      split at h
      · next hcomes =>
        obtain rfl := Option.some.inj h
        exact .last ⟨rfl, rfl⟩ hp (.inl ⟨msg, rfl⟩) hcomes
      · cases h
    · cases h
  | done prefill decode prompt tokens =>
    simp only [stepDaemon] at h
    split at h
    · next hp =>
      split at h
      · next hcomes =>
        obtain rfl := Option.some.inj h
        exact .last ⟨rfl, rfl⟩ hp (.inr ⟨_, _, _, _, rfl⟩) hcomes
      · cases h
    · cases h
  | fail =>
    simp only [stepDaemon] at h
    split at h
    · next hp =>
      obtain rfl := Option.some.inj h
      exact .fail hp
    · cases h
  | finish =>
    simp only [stepDaemon] at h
    split at h
    · next hc =>
      obtain rfl := Option.some.inj h
      exact .finish hc.1 hc.2
    · cases h

theorem effect_of_step (h : s.step e = some s') : Effect s e s' := by
  rw [step, Option.or_eq_some_iff] at h
  rcases h with h | ⟨-, h⟩
  · exact effect_of_stepClient h
  · exact effect_of_stepDaemon h

/-! ### What holds in every state -/

theorem Fair.request {k : ℕ} {area : List UInt8} (h : Fair s) (hk : k < s.joined)
    (hopen : (s.conns k).open_ = true)
    (hall : (s.conns k).lasts.length = (s.conns k).asked.length) :
    Fair (s.set k fun c =>
      { c with area, rung := c.rung ++ [.request], asked := c.asked ++ [(read area).1] }) := by
  refine h.change hk ((h.conn k).request hall area) (Conn.heard_rung (h.conn k) .request) rfl rfl
    (fun ho => ho) ?_
  -- a client that waits for an answer does not ask
  intro hpending
  obtain ⟨i, hat⟩ := h.present k hk hopen
  have hcounts := h.counts i k hat
  have hle := (h.conn k).heard_le
  rw [hpending, Bool.toNat_true] at hcounts
  omega

theorem fair_effect (h : Fair s) (he : Effect s e s') : Fair s' := by
  have hphase := h.phase
  cases he with
  | request hk hopen hall => exact h.request hk hopen hall
  | cancel hk =>
    exact h.change hk (h.conn _).cancelRung (Conn.heard_rung (h.conn _) .cancel) rfl rfl
      (fun ho => ho) fun _ => rfl
  | close hk => exact h.change hk (h.conn _).close rfl rfl rfl nofun fun _ => rfl
  | read hk hends => exact h.change hk ((h.conn _).setTail hends) rfl rfl rfl (fun ho => ho) fun _ => rfl
  | fail hp =>
    rw [hp] at hphase
    exact h.move (by rw [hp]; rfl) (by rw [hp]; rfl) hphase
  | poll hp => exact h.poll hp _
  | rung hp => exact h.move (by rw [hp]; rfl) (by rw [hp]; rfl) trivial
  | skip hp hnone =>
    rw [hp] at hphase
    refine h.move (by rw [hp]; rfl) (by rw [hp]; rfl) ⟨hphase.1.of_cons, ?_⟩
    exact fun j hj hmem => hphase.2 j hj (List.mem_cons_of_mem _ hmem)
  | look hp hat =>
    rw [hp] at hphase
    exact h.move (by rw [hp]; rfl) (by rw [hp]; rfl) ⟨hat, hphase⟩
  | chunk hp hpos hle => exact h.chunk_reads hp _
  | between hp hpos hle => exact h.chunk_hears (h.answering (.inr hp)) _
  | enqueue hp hempty => exact h.enqueue hp
  | quiet hp hempty hb =>
    rcases hb with rfl | hq
    · rw [hp] at hphase
      refine h.move (by rw [hp]; rfl) (by rw [hp]; rfl) ⟨hphase.2.1.of_cons, ?_⟩
      exact fun j hj hmem => hphase.2.2 j hj (List.mem_cons_of_mem _ hmem)
    · rw [(h.not_queued hp).2] at hq
      cases hq
  | leave hp hclosed => exact h.leave hp hclosed
  | answer hp hqueue hat hcomes => exact h.answer hp hqueue hat _
  | stale hp hqueue hnone =>
    obtain ⟨k, hat, hq⟩ := h.queue_at _ (by rw [hqueue]; exact List.mem_cons_self)
    rw [hnone k hat] at hq
    cases hq
  | text hp hroom => exact h.text (h.answering (.inl hp)) _
  | goOn hp =>
    rw [hp] at hphase
    exact h.move (by rw [hp]; rfl) (by rw [hp]; rfl) hphase
  | cut _ hp hwhy hcomes => exact h.cutOff (h.answering hp) hwhy
  | last _ hp ha hcomes =>
    exact h.last (h.answering (.inl hp)) ha.ends fun i hi => absurd hi (ha.not_cancelled i)
  | finish hp hqueue =>
    have hidle : ∀ b : Bool, Phase.busy (if b then .stopped else .poll) = none ∧
        Phase.current (if b then .stopped else .poll) = [] ∧
        PhaseOk { s with stop := false } (if b then .stopped else .poll) := by
      intro b
      cases b <;> exact ⟨rfl, rfl, hqueue⟩
    obtain ⟨hbusy, hcurrent, hok⟩ := hidle s.stop
    exact (h.setStop false).move (by rw [hbusy, hp]; rfl) (by rw [hcurrent, hp]; rfl) hok

theorem fair_step (h : Fair s) (he : s.step e = some s') : Fair s' :=
  fair_effect h (effect_of_step he)

theorem fair_of_reachable (h : Transition.Reachable step Transition.Libre initial s) : Fair s :=
  h.invariant fair_initial fun _ _ _ _ he hs => fair_step hs he

/-! ### Whose answer it is -/

/-- While texts are streamed, the request in hand is one that streams. -/
def Streaming (s : Served) : Prop :=
  ∀ k id, s.phase = .streams k id ∨ s.phase = .hears k id →
    ∃ w : World, w.answer (s.conns k).area = .streams

theorem streaming_of_drains (hp : s.phase = .drains) : Streaming s := by
  intro k id hk
  rw [hp] at hk
  simp at hk

theorem streaming_answer {k : ℕ} {w : World} (hp : s.phase = .drains) :
    Streaming (s.answer k w) := by
  unfold Served.answer
  dsimp only
  split
  · exact streaming_of_drains hp
  · split
    · exact streaming_of_drains hp
    · next hw =>
      rintro j id (hj | hj)
      · obtain ⟨rfl, -⟩ := Phase.streams.inj hj
        refine ⟨w, ?_⟩
        simp only [conns_set_self]
        exact hw
      · cases hj

theorem streaming_effect (h : Fair s) (hs : Streaming s) (he : Effect s e s') : Streaming s' := by
  have hkeep : ∀ {k : ℕ} {f : Conn → Conn}, (f (s.conns k)).area = (s.conns k).area →
      ∀ j, ((s.set k f).conns j).area = (s.conns j).area := fun hf =>
    forall_set (P := fun j c => c.area = (s.conns j).area) hf fun _ _ => rfl
  cases he with
  | @request k area hk hopen hall =>
    intro j id hj
    rcases eq_or_ne j k with rfl | hne
    · have hheard := h.heard_answering (h.answering hj)
      have hle := (h.conn j).heard_le
      omega
    · rw [conns_set_ne hne]
      exact hs j id hj
  | cancel hk | close hk | read hk hends =>
    intro j id hj
    rw [hkeep rfl]
    exact hs j id hj
  | @between k n id hp hpos hle =>
    intro j id' hj
    rw [hkeep (f := fun c => c.hearAll n) (Conn.hearAll_same _ (s.conns k)).2.2.1]
    exact hs j id' hj
  | answer hp hqueue hat hcomes => exact streaming_answer hp
  | stale hp hqueue hnone => exact hs
  | @text k id t hp hroom =>
    rintro j id' (hj | hj)
    · cases hj
    · obtain ⟨rfl, rfl⟩ := Phase.hears.inj hj
      have hsame := hkeep (k := k) (f := fun c => c.say (.text id t)) rfl k
      obtain ⟨w, hw⟩ := hs k id (.inl hp)
      exact ⟨w, (congrArg w.answer hsame).trans hw⟩
  | @goOn k id hp =>
    rintro j id' (hj | hj)
    · obtain ⟨rfl, rfl⟩ := Phase.streams.inj hj
      exact hs k id (.inr hp)
    · cases hj
  | finish hp hqueue =>
    have hidle : ∀ (b : Bool) (j : ℕ) (id : UInt64),
        ¬((if b then Phase.stopped else .poll) = .streams j id ∨
          (if b then Phase.stopped else .poll) = .hears j id) := by
      intro b j id
      cases b <;> simp
    exact fun j id hj => absurd hj (hidle s.stop j id)
  | fail | poll | rung | skip | look | chunk | enqueue | quiet | leave | cut | last =>
    rintro j id (hj | hj) <;> cases hj

theorem out_say (s : Served) (k : ℕ) (a : Answer) (j : ℕ) :
    ((s.say k a).conns j).out = if j = k then (s.conns j).out ++ [a] else (s.conns j).out := by
  simp only [say, Served.set]
  split <;> rfl

/-- A message goes to a connection that has a slot, and answers what stands in the request area
of that connection. -/
def Own (s s' : Served) : Prop :=
  ∀ k, (s'.conns k).out = (s.conns k).out ∨ ∃ i a, s.At i k ∧ Answers (s.conns k).area a ∧
    (s'.conns k).out = (s.conns k).out ++ [a]

theorem own_of_out (h : ∀ k, (s'.conns k).out = (s.conns k).out) : Own s s' :=
  fun k => .inl (h k)

theorem own_say {k i : ℕ} {a : Answer} (hat : s.At i k) (ha : Answers (s.conns k).area a)
    (h : ∀ j, (s'.conns j).out = if j = k then (s.conns j).out ++ [a] else (s.conns j).out) :
    Own s s' := by
  intro j
  rw [h j]
  rcases eq_or_ne j k with rfl | hne
  · exact .inr ⟨i, a, hat, ha, if_pos rfl⟩
  · exact .inl (if_neg hne)

theorem own_answer {i k : ℕ} {w : World} (hat : s.At i k) : Own s (s.answer k w) := by
  have hset : ∀ j, ((s.set k fun c => { c with queued := false, cancel := false }).conns j).out =
      (s.conns j).out :=
    forall_set (P := fun j c => c.out = (s.conns j).out) rfl fun _ _ => rfl
  unfold Served.answer
  dsimp only
  split
  · refine own_say hat .cancelled fun j => ?_
    rw [out_say, hset]
  · split
    · next ha =>
      refine own_say hat (.last ha) fun j => ?_
      rw [out_say, hset]
    · exact own_of_out hset

theorem own_effect (h : Fair s) (hs : Streaming s) (he : Effect s e s') : Own s s' := by
  have hkeep : ∀ {k : ℕ} {f : Conn → Conn}, (f (s.conns k)).out = (s.conns k).out →
      ∀ j, ((s.set k f).conns j).out = (s.conns j).out := fun hf =>
    forall_set (P := fun j c => c.out = (s.conns j).out) hf fun _ _ => rfl
  cases he with
  | request | cancel | close | read => exact own_of_out (hkeep rfl)
  | @enqueue i k todo hp hempty =>
    exact own_of_out (hkeep (k := k) (f := fun c => { c with queued := true }) rfl)
  | poll hp => exact own_of_out fun j => by split <;> rfl
  | @chunk i k n b todo hp hpos hle =>
    exact own_of_out (hkeep (f := fun c => c.hearAll n) (Conn.hearAll_same _ (s.conns k)).2.2.2.1)
  | @between k n id hp hpos hle =>
    exact own_of_out (hkeep (f := fun c => c.hearAll n) (Conn.hearAll_same _ (s.conns k)).2.2.2.1)
  | @answer i k queue w hp hqueue hat hcomes => exact own_answer (s := { s with queue }) hat
  | @text k id t hp hroom =>
    obtain ⟨-, -, rfl, i, hat⟩ := h.answering (.inl hp)
    obtain ⟨w, hw⟩ := hs k _ (.inl hp)
    exact own_say hat (.text hw) (out_say s k _)
  | @cut _ k id _ hp hwhy hcomes =>
    obtain ⟨-, -, rfl, i, hat⟩ := h.answering hp
    refine own_say hat .cancelled fun j => ?_
    change (((s.set k fun c => { c with cancel := false }).say k _).conns j).out = _
    rw [out_say, hkeep rfl]
  | @last _ k id a _ hp ha hcomes =>
    obtain ⟨-, -, rfl, i, hat⟩ := h.answering (.inl hp)
    obtain ⟨w, hw⟩ := hs k _ (.inl hp)
    refine own_say hat ?_ (out_say s k a)
    obtain ⟨e, rfl⟩ | ⟨_, _, _, _, rfl⟩ := ha
    · exact .broken hw
    · exact .done hw
  | fail | rung | skip | look | quiet | leave | stale | goOn | finish => exact own_of_out fun _ => rfl

theorem streaming_of_reachable (h : Transition.Reachable step Transition.Libre initial s) :
    Streaming s := by
  refine h.invariant_with (fun _ => fair_of_reachable) ?_ fun _ _ _ hf _ he hs =>
    streaming_effect hf hs (effect_of_step he)
  rintro k id (hp | hp) <;> cases hp

end Served

end Chatlink.Serve
