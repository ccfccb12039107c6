import Chatlink.Wpk.Landing

/-!
# Whole loads

Every load returns, whatever the kernel answers: each step uses up some of what is left to be asked
for, to arrive, to be handed over or to be copied. One that returns without an error has handed over
every chunk once, and the data is where it was to go.
-/
namespace Chatlink.Wpk.Load

open Files Transition

variable {c : Config} {st st' : State} {mem vram : List UInt8}

/-! ## Every state -/

structure Inv (c : Config) (st : State) : Prop where
  slotted : Slotted c st
  accounted : Accounted c st
  placed : Placed c st

theorem want_pos (hi : Accounted c st) {chunk : ℕ} {s : Fin DEPTH} {first : Bool}
    (hpoint : st.point = .target chunk s first) : 0 < c.want chunk := by
  have hmem : chunk ∈ st.chunks := by
    rw [State.chunks, hpoint, chunks_target]
    exact List.mem_append_right _ (List.mem_singleton.mpr rfl)
  have hreal := hi.real chunk (hi.below chunk hmem)
  have hCHUNK : 0 < CHUNK := by decide
  rw [Config.want]
  omega

/-- The program goes on, and the reads stay as they are. -/
theorem Slotted.go (hi : Slotted c st) (hflight : st'.flight = st.flight) (hbusy : st'.busy = st.busy)
    (hslots : st'.slots = st.slots) (hsub : st'.point.slots.Sublist st.point.slots)
    (hahead : ∀ s, st'.point.Ahead s → st.point.Ahead s)
    (hroom : st'.result = none → ∀ s, s ∈ st.users ++ st'.point.slots ∨ c.len ≤ st'.next * CHUNK ∨ st'.point.Ahead s)
    (hlive : st'.point.slots ≠ [] → st'.result = none) (hback : st'.point = .returned → st.flight = []) :
    Slotted c st' := by
  have husers : st'.users = st.users := by rw [State.users, State.users, hflight]
  refine ⟨?_, ?_, ?_, ?_, ?_, hlive, fun h => hflight ▸ hback h⟩
  · rw [hbusy, hflight, hi.busy]
  · rw [hflight, hslots]
    exact hi.requests
  · rw [husers]
    exact (hsub.append_left st.users).nodup hi.distinct
  · rw [husers]
    exact fun s h => hi.ahead s (hahead s h)
  · rw [husers]
    exact hroom

theorem Slotted.move (hs : Slotted c st) (ha : Accounted c st) {seen : Bool} (h : Moves c st seen st') : Slotted c st' := by
  cases h with
  | skip s first hpoint hnone => exact hs.skip hpoint hnone
  | take s first hpoint hsome =>
    have hlive : st.result = none := hs.live (by rw [hpoint]; exact List.cons_ne_nil _ _)
    refine hs.go rfl rfl rfl (by rw [hpoint]; exact .refl _) ?_ ?_ (fun _ => hlive) nofun
    · rw [hpoint]
      exact fun t h => h
    · intro _ t
      obtain h | h | h := hs.room hlive t
      · rw [hpoint] at h
        exact .inl h
      · omega
      · rw [hpoint] at h
        exact .inr (.inr h)
  | leave hpoint hbusy =>
    refine hs.go rfl rfl rfl (List.nil_sublist _) nofun ?_ (fun h => absurd rfl h) fun _ => ?_
    · have hroom := hs.room
      rw [hpoint] at hroom
      exact hroom
    · exact List.length_eq_zero_iff.mp (hs.busy ▸ hbusy)
  | refused chunk s first err hpoint =>
    exact hs.go rfl rfl rfl (List.nil_sublist _) nofun nofun (fun h => absurd rfl h) nofun
  | asked chunk s first hpoint hfree => exact hs.asked hpoint (want_pos ha hpoint)
  | broken l₁ l₂ q err hpoint hflight =>
    exact hs.fewer hpoint hflight (fun _ _ => rfl) st.mem (by simp)
  | whole l₁ l₂ q n hpoint hflight hn hlen hfile hwhole hok =>
    exact hs.whole hpoint hflight (fun s hne => Function.update_of_ne hne _ _) _ hok
  | late l₁ l₂ q n hpoint hflight hn hlen hfile hwhole hfailed =>
    exact hs.fewer hpoint hflight (fun s hne => Function.update_of_ne hne _ _) _ hfailed
  | short l₁ l₂ q n hpoint hflight hn hlen hfile hshort =>
    have hq : q ∈ st.flight := hflight ▸ List.mem_append_right _ List.mem_cons_self
    have hrest : q.len = (st.slots q.userData).want - (st.slots q.userData).done :=
      congrArg Sqe.len (hs.requests q hq).1
    refine hs.short hpoint hflight (fun s hne => Function.update_of_ne hne _ _) _ ?_
    rw [Function.update_self]
    dsimp only
    omega
  | handed s hpoint ups hups =>
    have hlive : st.result = none := hs.live (by rw [hpoint]; exact List.cons_ne_nil _ _)
    refine hs.go rfl rfl rfl (by rw [hpoint]; exact .refl _) (fun t h => absurd h.1 nofun) ?_ (fun _ => hlive) nofun
    intro _ t
    obtain h | h | h := hs.room hlive t
    · rw [hpoint] at h
      exact .inl h
    · exact .inr (.inl h)
    · rw [hpoint] at h
      exact absurd h id
  | dropped s err hpoint ups hups =>
    exact hs.go rfl rfl rfl (List.nil_sublist _) nofun nofun (fun h => absurd rfl h) nofun
  | copied chunk s uploads hups => exact hs.go rfl rfl rfl (.refl _) (fun _ h => h) hs.room hs.live hs.back
  | scribbled q i bytes hq hin => exact hs.go rfl rfl rfl (.refl _) (fun _ h => h) hs.room hs.live hs.back

theorem inv_start : Inv c (start mem vram) :=
  ⟨slotted_start mem vram, accounted_start mem vram, placed_start mem vram⟩

theorem Inv.step (hi : Inv c st) {inp : Input} (h : step c st inp = some st') : Inv c st' := by
  have hmove := moves_of_step h
  exact ⟨hi.slotted.move hi.accounted hmove, hi.accounted.move hi.slotted hmove,
    hi.placed.move hi.slotted hi.accounted hmove⟩

theorem inv_of_run {as : List Input} (h : run (step c) (start mem vram) as = some st) : Inv c st :=
  run_invariant h inv_start fun _ _ _ _ hstep hi => hi.step hstep

/-! ## The end of a load -/

/-- The number of chunks. -/
def Config.chunks (c : Config) : ℕ := (c.len + (CHUNK - 1)) / CHUNK

theorem lt_chunks_iff {x : ℕ} : x < c.chunks ↔ x * CHUNK < c.len := by
  have hCHUNK : 0 < CHUNK := by decide
  rw [Config.chunks, ← Nat.succ_le_iff, Nat.le_div_iff_mul_le hCHUNK, Nat.succ_mul]
  omega

/-- The memory that is to hold the data: that of the GPU, once the stream is done, or the host's. -/
def State.dest (c : Config) (st : State) : List UInt8 :=
  match c.target with
  | .device => st.vram
  | .host => st.mem

/-- A load that has ended well has taken up every chunk. -/
theorem chunks_of_returned (hi : Inv c st) (hpoint : st.point = .returned) (hok : st.result = none) :
    st.delivered.Perm (List.range c.chunks) := by
  have hflight := hi.slotted.back hpoint
  have hchunks : st.chunks = st.delivered := by
    rw [State.chunks, State.users, hflight, hpoint, chunks_returned]
    simp
  have hnext : c.len ≤ st.next * CHUNK := by
    obtain h | h | h := hi.slotted.room hok ⟨0, by decide⟩
    · rw [State.users, hflight, hpoint] at h
      cases h
    · exact h
    · rw [hpoint] at h
      exact absurd h id
  have honce := hi.accounted.once
  have hbelow := hi.accounted.below
  have hall := hi.accounted.all hok
  rw [hchunks] at honce hbelow hall
  refine (List.perm_ext_iff_of_nodup honce List.nodup_range).mpr fun x => ?_
  rw [List.mem_range, lt_chunks_iff]
  constructor
  · exact fun hx => hi.accounted.real x (hbelow x hx)
  · intro hx
    refine hall x ?_
    by_contra hle
    have hmul := Nat.mul_le_mul_right CHUNK (Nat.le_of_not_lt hle)
    omega

/-- Every chunk that was handed over is in its place, once the stream has made its copies. -/
theorem copied_of_delivered (hi : Inv c st) (hups : st.uploads = []) {x : ℕ} (hx : x ∈ st.delivered) :
    Copied c.file (ALIGN + x * CHUNK) (st.dest c) (x * CHUNK) (c.want x) := by
  cases htarget : c.target with
  | device =>
    have hsent := hi.placed.sent htarget x hx
    rw [hups] at hsent
    rw [State.dest, htarget]
    exact hsent.resolve_left List.not_mem_nil
  | host =>
    have hmem : (⟨x, x, c.want x⟩ : Area) ∈ st.areas c := by
      refine List.mem_append_right _ ?_
      rw [State.kept, htarget]
      exact List.mem_map_of_mem hx
    rw [State.dest, htarget]
    exact (hi.placed.safe.bytes _ hmem).2

/-- What a load owes its caller, in every state it goes through. -/
structure Proper (c : Config) (st : State) : Prop where
  /-- A chunk is whole when it is handed over. -/
  landed : ∀ s, st.point = .landed s → Copied c.file (ALIGN + (st.slots s).chunk * CHUNK) st.mem
    (c.target.place (st.slots s).chunk s * CHUNK) (c.want (st.slots s).chunk)
  /-- Nothing is read into a slot whose chunk was not handed over, or not copied, which it still holds. -/
  unread : ∀ q ∈ st.flight, st.point ≠ .landed q.userData ∧ ∀ u ∈ st.uploads, u.2 ≠ q.userData
  queued : ∀ u ∈ st.uploads, Copied c.file (ALIGN + u.1 * CHUNK) st.mem (u.2 * CHUNK) (c.want u.1)
  /-- Without an error every chunk was handed over once and, behind the last copy, the data is in its place. -/
  complete : st.point = .returned → st.result = none → st.delivered.Perm (List.range c.chunks) ∧
    (st.uploads = [] → Copied c.file ALIGN (st.dest c) 0 c.len)
  /-- After an error nothing is handed over. -/
  stopped : st.result ≠ none → ∀ inp st', step c st inp = some st' →
    st'.delivered = st.delivered ∧ st'.result = st.result
  drained : st.point = .returned → st.flight = []

theorem stopped_of_move (hs : Slotted c st) {seen : Bool} (h : Moves c st seen st') (hfailed : st.result ≠ none) :
    st'.delivered = st.delivered ∧ st'.result = st.result := by
  have hlive := hs.live
  cases h with
  | handed s hpoint ups hups => exact absurd (hlive (by rw [hpoint]; exact List.cons_ne_nil _ _)) hfailed
  | dropped s err hpoint ups hups => exact absurd (hlive (by rw [hpoint]; exact List.cons_ne_nil _ _)) hfailed
  | refused chunk s first err hpoint => exact absurd (hlive (by rw [hpoint]; exact List.cons_ne_nil _ _)) hfailed
  | broken l₁ l₂ q err hpoint hflight =>
    refine ⟨rfl, ?_⟩
    obtain ⟨old, hold⟩ := Option.ne_none_iff_exists'.mp hfailed
    dsimp only
    rw [hold, Option.some_or]
  | _ => exact ⟨rfl, rfl⟩

theorem Inv.proper (hi : Inv c st) : Proper c st := by
  refine ⟨fun s hpoint => ?_, fun q hq => ⟨fun hpoint => ?_, fun u hu heq => ?_⟩, fun u hu => ?_, fun hpoint hok => ?_,
    fun hfailed inp st' h => stopped_of_move hi.slotted (moves_of_step h) hfailed, hi.slotted.back⟩
  · obtain ⟨⟨-, hwant⟩, hwhole⟩ := hi.placed.whole s hpoint
    have hmem : reading c st.slots s ∈ st.areas c := by
      rw [State.areas, hpoint, areas_landed]
      exact List.mem_append_left _ (List.mem_append_right _ (List.mem_singleton.mpr rfl))
    have hbytes := (hi.placed.safe.bytes _ hmem).2
    rw [reading, hwhole, hwant] at hbytes
    exact hbytes
  · have hdistinct := hi.slotted.distinct
    rw [hpoint] at hdistinct
    exact (List.nodup_append.mp hdistinct).2.2 _ (List.mem_map_of_mem hq) _ (List.mem_singleton.mpr rfl) rfl
  · have htarget := hi.placed.device_of_upload hu
    have hapart := hi.placed.safe.apart
    rw [State.areas, List.map_append] at hapart
    have hread : q.userData.1 ∈ (st.users.map (reading c st.slots) ++ st.point.areas c st.slots).map Area.place := by
      refine List.mem_map.mpr ⟨reading c st.slots q.userData, ?_, by rw [reading, htarget]; rfl⟩
      exact List.mem_append_left _ (List.mem_map_of_mem (List.mem_map_of_mem hq))
    have hkept : q.userData.1 ∈ (st.kept c).map Area.place :=
      List.mem_map.mpr ⟨⟨u.2, u.1, c.want u.1⟩, mem_kept htarget hu, congrArg Fin.val heq⟩
    exact (List.nodup_append.mp hapart).2.2 _ hread _ hkept rfl
  · have hkept := mem_kept (hi.placed.device_of_upload hu) hu
    exact (hi.placed.safe.bytes _ (List.mem_append_right _ hkept)).2
  · have hperm := chunks_of_returned hi hpoint hok
    have hlast : c.len ≤ c.chunks * CHUNK := Nat.le_of_not_lt (mt lt_chunks_iff.mpr (Nat.lt_irrefl c.chunks))
    refine ⟨hperm, fun hups => copied_of_blocks c.chunks hlast fun x hx _ => ?_⟩
    rw [Nat.zero_add]
    exact copied_of_delivered hi hups (hperm.mem_iff.mpr (List.mem_range.mpr hx))

/-! ## Loads end -/

/-- Steps that remain at a point, with the wait for the next one. -/
def Point.left (c : Config) : Point → ℕ
  | .refill s first => (if first then 2 * (DEPTH - 1 - s) else 0) + 2
  | .target chunk s first => c.want chunk + (if first then 2 * (DEPTH - 1 - s) else 0) + 7
  | .waiting => 1
  | .landed _ => 4
  | .returned => 0

/-- What is left to be asked for, to arrive, to be done and to be copied. -/
def State.left (c : Config) (st : State) : ℕ :=
  (c.chunks - st.next) * (CHUNK + 6) + (st.flight.map fun q => q.len + 5).sum + st.point.left c + st.uploads.length

theorem left_after (s : Fin DEPTH) (first : Bool) :
    (after s first).left c ≤ (if first then 2 * (DEPTH - 1 - s.1) else 0) + 1 := by
  obtain ⟨t, rfl, ht, h⟩ | ⟨-, h⟩ := after_cases s first
  · have hlt := t.2
    rw [h, Point.left, if_pos rfl, if_pos rfl]
    omega
  · rw [h, Point.left]
    omega

theorem sum_append_one (l : List Sqe) (q : Sqe) :
    ((l ++ [q]).map fun q => q.len + 5).sum = (l.map fun q => q.len + 5).sum + (q.len + 5) := by
  simp

theorem sum_split {l₁ l₂ : List Sqe} {q : Sqe} (hflight : st.flight = l₁ ++ q :: l₂) :
    (st.flight.map fun q => q.len + 5).sum = ((l₁ ++ l₂).map fun q => q.len + 5).sum + (q.len + 5) := by
  rw [hflight]
  simp only [List.map_append, List.map_cons, List.sum_append, List.sum_cons]
  omega

theorem left_lt (hi : Inv c st) (h : Moves c st false st') : st'.left c < st.left c := by
  have hbelow : ∀ x < st.next, x < c.chunks := fun x hx => lt_chunks_iff.mpr (hi.accounted.real x hx)
  cases h with
  | skip s first hpoint hnone =>
    have hafter := left_after (c := c) s first
    unfold State.left
    dsimp only
    rw [hpoint, Point.left]
    omega
  | take s first hpoint hsome =>
    have hnext := lt_chunks_iff.mpr hsome
    have hwant := want_le c st.next
    have hmul : (c.chunks - st.next) * (CHUNK + 6) = (c.chunks - (st.next + 1)) * (CHUNK + 6) + (CHUNK + 6) := by
      rw [← Nat.succ_mul]
      congr 1
      omega
    unfold State.left
    dsimp only
    rw [hpoint, hmul, Point.left, Point.left]
    omega
  | leave hpoint hbusy =>
    unfold State.left
    dsimp only
    rw [hpoint, Point.left, Point.left]
    omega
  | refused chunk s first err hpoint =>
    unfold State.left fail
    dsimp only
    rw [hpoint, Point.left, Point.left]
    omega
  | asked chunk s first hpoint hfree =>
    have hafter := left_after (c := c) s first
    have hself : (Function.update st.slots s ⟨chunk, c.target.place chunk s * CHUNK, c.want chunk, 0⟩) s =
      ⟨chunk, c.target.place chunk s * CHUNK, c.want chunk, 0⟩ := Function.update_self s _ _
    unfold State.left taken submit
    dsimp only
    rw [hpoint, Point.left, hself, sum_append_one, request]
    dsimp only
    omega
  | broken l₁ l₂ q err hpoint hflight =>
    have hsum := sum_split hflight
    unfold State.left
    dsimp only
    omega
  | whole l₁ l₂ q n hpoint hflight hn hlen hfile hwhole hok =>
    have hsum := sum_split hflight
    unfold State.left arrived
    dsimp only
    rw [hpoint, Point.left, Point.left]
    omega
  | late l₁ l₂ q n hpoint hflight hn hlen hfile hwhole hfailed =>
    have hsum := sum_split hflight
    unfold State.left arrived
    dsimp only
    omega
  | short l₁ l₂ q n hpoint hflight hn hlen hfile hshort =>
    have hsum := sum_split hflight
    have hq : q ∈ st.flight := hflight ▸ List.mem_append_right _ List.mem_cons_self
    have hrest : q.len = (st.slots q.userData).want - (st.slots q.userData).done :=
      congrArg Sqe.len (hi.slotted.requests q hq).1
    have hself : (arrived c st l₁ l₂ q n).slots q.userData =
      { st.slots q.userData with done := (st.slots q.userData).done + n } := arrived_self
    unfold State.left submit
    rw [hself]
    dsimp only
    rw [sum_append_one, request, arrived]
    dsimp only
    omega
  | handed s hpoint ups hups =>
    have hone : ups.length ≤ 1 := by
      rw [hups]
      cases c.target with
      | device => exact Nat.le_refl 1
      | host => exact Nat.zero_le 1
    unfold State.left
    dsimp only
    rw [hpoint, Point.left, Point.left, List.length_append]
    simp only [Bool.false_eq_true, if_false]
    omega
  | dropped s err hpoint ups hups =>
    have hone : ups.length ≤ 1 := by
      obtain rfl | ⟨-, rfl⟩ := hups <;> simp
    unfold State.left fail
    dsimp only
    rw [hpoint, Point.left, Point.left, List.length_append]
    omega
  | copied chunk s uploads hups =>
    unfold State.left
    dsimp only
    rw [hups, List.length_cons]
    omega

theorem left_scribbled (h : Moves c st true st') : st'.left c = st.left c := by
  cases h with
  | scribbled q i bytes hq hin => rfl

theorem steps_le {as : List Input} (hi : Inv c st) (h : run (step c) st as = some st') :
    as.countP (fun inp => !inp.isScribble) + st'.left c ≤ st.left c := by
  induction as generalizing st with
  | nil =>
    obtain rfl : st = st' := Option.some.inj h
    simp
  | cons inp as ih =>
    obtain ⟨st₁, hstep, hrest⟩ := run_cons_eq_some.mp h
    have htail := ih (hi.step hstep) hrest
    have hmove := moves_of_step hstep
    rw [List.countP_cons]
    cases hseen : inp.isScribble with
    | true =>
      rw [hseen] at hmove
      have hleft := left_scribbled hmove
      simp only [Bool.not_true, Bool.false_eq_true, if_false]
      omega
    | false =>
      rw [hseen] at hmove
      have hleft := left_lt hi hmove
      simp only [Bool.not_false, if_true]
      omega

/-- Something can always be done until the load returns. -/
theorem exists_step (hs : Slotted c st) (hpoint : st.point ≠ .returned) :
    ∃ inp, inp.isScribble = false ∧ (step c st inp).isSome := by
  cases hat : st.point with
  | refill s first =>
    refine ⟨.go, rfl, ?_⟩
    unfold step
    dsimp only
    rw [hat]
    dsimp only
    split_ifs <;> rfl
  | target chunk s first =>
    by_cases hfree : ∃ u ∈ st.uploads, u.2 = s
    · obtain ⟨u, hu, -⟩ := hfree
      refine ⟨.copy, rfl, ?_⟩
      unfold step
      cases hups : st.uploads with
      | nil =>
        rw [hups] at hu
        cases hu
      | cons u uploads => rfl
    · refine ⟨.found none, rfl, ?_⟩
      unfold step
      dsimp only
      rw [hat]
      dsimp only
      rw [if_neg hfree]
      rfl
  | waiting =>
    by_cases hbusy : st.busy = 0
    · refine ⟨.go, rfl, ?_⟩
      unfold step
      dsimp only
      rw [hat]
      dsimp only
      rw [if_pos hbusy]
      rfl
    · refine ⟨.completion 0 (-1), rfl, ?_⟩
      unfold step
      cases hflight : st.flight with
      | nil =>
        rw [hs.busy, hflight] at hbusy
        exact absurd rfl hbusy
      | cons q flight =>
        dsimp only
        rw [hat]
        dsimp only [List.getElem?_cons_zero]
        rw [if_pos ⟨by omega, by omega⟩]
        rfl
  | landed s =>
    refine ⟨.handed true none, rfl, ?_⟩
    unfold step
    dsimp only
    rw [hat]
    rfl
  | returned => exact absurd hat hpoint

/-- Every run of a load keeps what it owes its caller, and comes to its end. -/
theorem load_proper {as : List Input} (h : run (step c) (start mem vram) as = some st) :
    Proper c st ∧ as.countP (fun inp => !inp.isScribble) ≤ c.chunks * (CHUNK + 6) + 2 * DEPTH ∧
      (st.point ≠ .returned → ∃ inp, inp.isScribble = false ∧ (step c st inp).isSome) := by
  have hi := inv_of_run h
  have hsteps := steps_le inv_start h
  have hpoint : (start mem vram).point.left c = 2 * DEPTH := rfl
  have hstart : (start mem vram).left c = c.chunks * (CHUNK + 6) + 2 * DEPTH := by
    rw [State.left, hpoint]
    simp [start]
  exact ⟨hi.proper, by omega, exists_step hi.slotted⟩

/-- Three bytes behind a header's block, on their way to VRAM in two pieces. -/
theorem three_bytes_loaded : ∃ st, run (step ⟨.device, List.replicate ALIGN 0 ++ [1, 2, 3], 3⟩)
    (start [] []) [.go, .found none, .go, .go, .go, .completion 0 2, .completion 0 1, .handed true none, .copy, .go, .go] =
      some st ∧ st.result = none ∧ st.point = .returned ∧ Proper ⟨.device, List.replicate ALIGN 0 ++ [1, 2, 3], 3⟩ st := by
  have hrun : ((run (step ⟨.device, List.replicate ALIGN 0 ++ [1, 2, 3], 3⟩) (start [] [])
      [.go, .found none, .go, .go, .go, .completion 0 2, .completion 0 1, .handed true none, .copy, .go, .go]).map
        fun st => (st.result, st.point)) = some (none, .returned) := by
    decide +kernel
  obtain ⟨st, hst, hend⟩ := Option.map_eq_some_iff.mp hrun
  obtain ⟨hresult, hpoint⟩ := Prod.mk.inj hend
  exact ⟨st, hst, hresult, hpoint, (load_proper hst).1⟩

end Chatlink.Wpk.Load
